import Homoicon.Evaluate.Step
import Homoicon.Proofs.Renumbering.Operations

/-!
# Steps under a renumbering

What is nested in a step runs at most as many frames deeper as the evaluator allows; the induction
is on that number.
-/

namespace Homoicon

variable {ρ : Renumbering}

/-! ### Calls -/

namespace Renumbering

variable {ev : Evaluator} {frame : Frame} {c c' : CallState}

abbrev Arguments (ρ : Renumbering) :
    List (Nat × Param × Value) → List (Nat × Param × Value) → Prop :=
  List.Forall₂ fun e e' => e'.1 = e.1 ∧ e'.2.1 = e.2.1 ∧ e.2.2.Matches ρ e'.2.2

theorem bindParams {a a' : Action} {scope : ScopeId} {entries entries' : List (Nat × Param × Value)}
    (ha : a.Matches ρ a') (h : ρ.Arguments entries entries') :
    ρ.Holds (fun _ _ => True) (bindParams a scope entries) (bindParams a' scope entries') := by
  induction h with
  | nil => exact .ret trivial
  | @cons e e' _ _ he _ ih =>
    obtain ⟨index, p, v⟩ := e
    obtain ⟨index', p', v'⟩ := e'
    obtain ⟨rfl, rfl, hv⟩ := he
    unfold Homoicon.bindParams
    rw [ha.bindsWord]
    exact (Holds.onlyIf fun _ => Holds.define hv).bind fun _ _ _ => ih

theorem slotArguments (h : c.Matches ρ c') :
    ρ.Arguments ((c.action.params.zip c.slots).zipIdx.map fun (e, i) => (i, e.1, e.2))
      ((c'.action.params.zip c'.slots).zipIdx.map fun (e, i) => (i, e.1, e.2)) := by
  rw [h.action.params]
  refine List.rel_map ?_ (rel_zipIdx (rel_zip h.slots) 0)
  rintro ⟨e, i⟩ ⟨e', i'⟩ ⟨⟨hp, hv⟩, hi⟩
  exact ⟨hi, hp, hv⟩

theorem bodyScope {scope : ScopeId} (h : c.Matches ρ c') :
    ρ.Holds Eq (bodyScope c scope) (bodyScope c' scope) := by
  refine Holds.newScope.bind fun inner _ hinner => ?_
  subst hinner
  exact (bindParams h.action (slotArguments h)).bind fun _ _ _ => .ret rfl

theorem checkResult {v v' : Value} (h : c.Matches ρ c') (hv : v.Matches ρ v') :
    checkResult c' v' = checkResult c v := by
  unfold Homoicon.checkResult
  rw [h.action.params, h.label]
  split
  · exact checkType_matches hv
  · rfl

theorem refillFrom {scope : ScopeId} {params : List (Param × Nat)} (h : c.Matches ρ c') :
    ρ.Holds (CallState.Matches ρ) (refillFrom scope params c) (refillFrom scope params c') := by
  induction params generalizing c c' with
  | nil => exact .ret h
  | cons entry rest ih =>
    obtain ⟨p, i⟩ := entry
    have hspecializable : c'.action.isSpecializable p i = c.action.isSpecializable p i := by
      rw [Action.isSpecializable, Action.isSpecializable, h.action.bindsWord]
    unfold Homoicon.refillFrom
    rw [hspecializable]
    split
    · refine Holds.lookup.bind fun o o' ho => ?_
      cases ho with
      | none => exact ih h
      | some hv => exact ih (h.refill i hv)
    · exact ih h

variable (N : ρ.Nested ev)
include N

theorem runBody {id : FrameId} {body body' : List Value} {scope : ScopeId} (h : c.Matches ρ c')
    (hb : Value.AllMatch ρ body body') :
    ρ.Holds (Bounce.Matches ρ) (ev.runBody id c body scope)
      (ev.runBody (ρ.frame id) c' body' scope) := by
  refine (bodyScope h).bind fun inner _ hinner => ?_
  subst hinner
  refine Holds.bind (P := Value.Matches ρ) (Holds.handle ?_ (.activation id) fun s s' hs => ?_)
    fun v v' hv => ?_
  · exact (N.runUnits hb).bind fun _ _ hv => .ret (rel_getD hv .void)
  · exact Holds.note.bind fun _ _ _ => .ret hs.payload
  · rw [checkResult h hv]
    exact (Holds.ofExcept (Checks.same _)).bind fun _ _ _ => .ret (.out hv)

theorem runPrelude {prelude prelude' : List Value} {scope : ScopeId} (h : c.Matches ρ c')
    (hp : Value.AllMatch ρ prelude prelude') :
    ρ.Holds (CallState.Matches ρ) (ev.runPrelude c prelude scope)
      (ev.runPrelude c' prelude' scope) := by
  refine (bodyScope h).bind fun inner _ hinner => ?_
  subst hinner
  refine (N.runUnits hp).bind fun _ _ _ => ?_
  rw [h.action.params]
  exact refillFrom h

theorem runDispatcher (h : c.Matches ρ c') :
    ρ.Holds (fun r r' => r.1.Matches ρ r'.1 ∧ r.2.Matches ρ r'.2) (ev.runDispatcher frame c)
      (ev.runDispatcher (ρ.callFrame frame) c') := by
  have hd := h.action.dispatcher
  unfold Evaluator.runDispatcher
  generalize c.action.dispatcher = d, c'.action.dispatcher = d' at hd
  cases hd with
  | native n =>
    exact Holds.mark.bind fun _ _ _ => (operation N ⟨rfl, h⟩).bind fun _ _ hb => .ret ⟨hb, h⟩
  | interpreted hb scope => exact (runBody N h hb).bind fun _ _ hb => .ret ⟨hb, h⟩
  | adapted hp scope ha =>
    exact (runPrelude N h hp).bind fun _ _ hc => .ret ⟨.redo ha true, hc⟩
  | returnTo target => exact .signal ⟨.returnTo target, h.slot 0⟩

theorem runFilled {fuel : Nat} (h : c.Matches ρ c') :
    ρ.Holds (Value.MaybeMatch ρ) (ev.runFilled frame fuel c)
      (ev.runFilled (ρ.callFrame frame) fuel c') := by
  induction fuel generalizing c c' with
  | zero => exact .exhaust
  | succ fuel ih =>
    refine (runDispatcher N h).bind fun r r' hr => ?_
    obtain ⟨b, d⟩ := r
    obtain ⟨b', d'⟩ := r'
    obtain ⟨hb, hd⟩ : b.Matches ρ b' ∧ d.Matches ρ d' := hr
    cases hb with
    | out hv => exact .ret (.some hv)
    | invisible => exact .ret .none
    | @redo a a' ha checked =>
      have hsignature : d'.action.signature ≠ a'.signature ↔ d.action.signature ≠ a.signature :=
        not_congr (hd.action.signature_iff ha)
      have hgoing : CallState.Matches ρ { d with action := a } { d' with action := a' } :=
        { hd with action := ha }
      dsimp only
      rw [hd.label] at hgoing ⊢
      simp only [hsignature]
      split
      · exact .failWith (.refl _)
      · refine Holds.note.bind fun _ _ _ => ?_
        refine (Holds.onlyIf fun _ => ?_).bind fun _ _ _ => ih hgoing
        rw [hgoing.checkAll]
        exact .ofExcept (Checks.same _)

theorem invoke {feed : FeedId} {p p' : PendingCall} (h : p.Matches ρ p') :
    ρ.Holds (Value.MaybeMatch ρ) (ev.invoke feed p) (ev.invoke feed p') := by
  unfold Evaluator.invoke
  rw [h.label]
  refine Holds.mapFault (Holds.withFrame fun id => ?_) fun f f' hf => ?_
  · refine Holds.note.bind fun _ _ _ => ?_
    refine (fulfil N (.start h) h.left).bind fun d d' hd => ?_
    have hadaptations : p'.action.adaptations = p.action.adaptations := h.action.adaptations
    rw [hadaptations]
    exact runFilled N hd
  · refine Holds.lookback.bind fun o o' ho => ?_
    cases ho with
    | none => exact .ret hf
    | some hunit => exact .ret (hf.nearUnit hunit.mold)

end Renumbering

/-! ### States of a step -/

inductive StepState.Matches (ρ : Renumbering) : StepState → StepState → Prop
  | start : StepState.Matches ρ .start .start
  | lookbackQuote {v v' : Value} (h : v.Matches ρ v') :
    StepState.Matches ρ (.lookbackQuote v) (.lookbackQuote v')
  | dispatch {v v' : Value} (h : v.Matches ρ v') : StepState.Matches ρ (.dispatch v) (.dispatch v')
  | processAction {p p' : PendingCall} (h : p.Matches ρ p') :
    StepState.Matches ρ (.processAction p) (.processAction p')
  | postSwitch : StepState.Matches ρ .postSwitch .postSwitch
  | finished : StepState.Matches ρ .finished .finished

/-- Frames over the same feed.  Their numbers do not matter for what steps do. -/
structure Frame.Matches (ρ : Renumbering) (f f' : Frame) : Prop where
  feed : f'.feed = f.feed
  last : Value.MaybeMatch ρ f.out.last f'.out.last
  stale : f'.out.stale = f.out.stale
  fulfilling : f'.fulfilling = f.fulfilling
  noLookahead : f'.noLookahead = f.noLookahead

structure Stepped.Matches (ρ : Renumbering) (s s' : Stepped) : Prop where
  frame : s.frame.Matches ρ s'.frame
  signal : Option.Rel (Signal.Matches ρ) s.signal s'.signal

namespace Frame.Matches

variable {f f' : Frame}

theorem fresh (id id' : FrameId) (feed : FeedId) (fulfilling : Bool) :
    Frame.Matches ρ { id, feed, fulfilling } { id := id', feed, fulfilling } :=
  ⟨rfl, .none, rfl, rfl, rfl⟩

theorem get? (h : f.Matches ρ f') : Value.MaybeMatch ρ f.out.get? f'.out.get? := by
  unfold OutCell.get?
  rw [h.stale]
  split
  · exact .none
  · exact h.last

theorem set (h : f.Matches ρ f') {v v' : Value} (hv : v.Matches ρ v') :
    Frame.Matches ρ { f with out := f.out.set v } { f' with out := f'.out.set v' } :=
  { h with last := .some hv, stale := rfl }

theorem markStale (h : f.Matches ρ f') :
    Frame.Matches ρ { f with out := f.out.markStale } { f' with out := f'.out.markStale } :=
  { h with stale := rfl }

theorem taken (h : f.Matches ρ f') :
    Frame.Matches ρ { f with out := f.out.taken } { f' with out := f'.out.taken } := by
  unfold OutCell.taken
  rw [h.stale]
  split
  · exact h
  · exact { h with last := .none, stale := rfl }

theorem produced (h : f.Matches ρ f') {o o' : Option Value} (ho : Value.MaybeMatch ρ o o') :
    (Evaluator.produced f o).1.Matches ρ (Evaluator.produced f' o').1 ∧
      (Evaluator.produced f o).2.Matches ρ (Evaluator.produced f' o').2 := by
  cases ho with
  | none => exact ⟨h, .postSwitch⟩
  | some hv => exact ⟨h.set hv, .postSwitch⟩

end Frame.Matches

theorem StepState.Matches.name {s s' : StepState} (h : s.Matches ρ s') : s'.name = s.name := by
  cases h <;> rfl

namespace Renumbering

variable {ev : Evaluator} {frame frame' : Frame} {feed : FeedId}

/-- What a transition leaves: the frame, and the state after it. -/
abbrev Passes (ρ : Renumbering) (r r' : Frame × StepState) : Prop :=
  r.1.Matches ρ r'.1 ∧ r.2.Matches ρ r'.2

theorem wordAction? {o o' : Option Value} (h : Value.MaybeMatch ρ o o') :
    ρ.Holds (Option.Rel fun e e' => e'.1 = e.1 ∧ e.2.Matches ρ e'.2) (wordAction? feed o)
      (wordAction? feed o') := by
  cases h with
  | none => exact .ret .none
  | some h =>
    cases h with
    | word name =>
      refine Holds.scopeOf.bind fun s _ hs => ?_
      subst hs
      refine Holds.lookup.bind fun o o' ho => ?_
      cases ho with
      | none => exact .ret .none
      | some hv =>
        cases hv with
        | action _ ha => exact .ret (.some ⟨rfl, ha⟩)
        | _ => exact .ret .none
    | _ => exact .ret .none

theorem claims? {a a' : Action} {v v' : Value} (ha : a.Matches ρ a') (hv : v.Matches ρ v') :
    a'.claims? v' = a.claims? v := by
  unfold Action.claims?
  rw [ha.firstParam?, ha.quotesFirst]
  simp only [hv.accepts]

theorem leftClaim? {v v' : Value} (h : v.Matches ρ v') :
    ρ.Holds (Option.Rel fun e e' => e'.1 = e.1 ∧ e.2.1.Matches ρ e'.2.1 ∧ e'.2.2 = e.2.2)
      (leftClaim? feed v) (leftClaim? feed v') := by
  refine Holds.peekNext.bind fun next next' hnext => (wordAction? hnext).bind fun o o' ho => ?_
  cases ho with
  | none => exact .ret .none
  | @some e e' he =>
    obtain ⟨name, a⟩ := e
    obtain ⟨name', a'⟩ := e'
    obtain ⟨rfl, ha⟩ : name' = name ∧ a.Matches ρ a' := he
    dsimp only
    rw [claims? ha h]
    exact .ret (rel_map (rel_same (fun _ => rfl) _) fun p _ hp => ⟨rfl, ha, hp.symm⟩)

theorem startStep (h : frame.Matches ρ frame') :
    ρ.Holds (StepState.Matches ρ) (Evaluator.startStep frame) (Evaluator.startStep frame') := by
  unfold Evaluator.startStep
  rw [h.feed]
  refine Holds.peek.bind fun o o' ho => ?_
  cases ho with
  | none => exact .ret .finished
  | some hunit =>
    cases hunit with
    | comma => exact Holds.advance.bind fun _ _ _ => .ret .finished
    | _ => exact .ret (.lookbackQuote (by constructor <;> assumption))

theorem callByWord {a a' : Action} {name : String} (h : frame.Matches ρ frame')
    (ha : a.Matches ρ a') :
    ρ.Holds (StepState.Matches ρ) (Evaluator.callByWord frame a name)
      (Evaluator.callByWord frame' a' name) := by
  unfold Evaluator.callByWord
  rw [ha.enfixed, ha.deferral, ha.toleratesAbsentLeft, h.feed]
  split
  · exact .ret (.processAction ⟨ha, rfl, .none, rfl⟩)
  · refine Holds.deferring.bind fun b _ hb => ?_
    subst hb
    split
    · exact .failWith (.refl _)
    · split
      · exact .fail (.refl _)
      · exact .ret (.processAction ⟨ha, rfl, .some .null, rfl⟩)

theorem postSwitch (h : frame.Matches ρ frame') :
    ρ.Holds ρ.Passes (postSwitch frame) (postSwitch frame') := by
  unfold Homoicon.postSwitch
  rw [h.feed, h.noLookahead, h.stale, h.fulfilling]
  refine Holds.peek.bind fun next next' hnext => (wordAction? hnext).bind fun o o' ho => ?_
  cases ho with
  | none => exact .ret ⟨h, .finished⟩
  | @some e e' he =>
    obtain ⟨name, a⟩ := e
    obtain ⟨name', a'⟩ := e'
    obtain ⟨rfl, ha⟩ : name' = name ∧ a.Matches ρ a' := he
    dsimp only
    rw [ha.enfixed, ha.quotesFirst, ha.toleratesAbsentLeft, ha.deferral]
    split
    · exact .ret ⟨h, .finished⟩
    · split
      · exact Holds.note.bind fun _ _ _ => .ret
          ⟨{ h with feed := rfl, fulfilling := rfl, noLookahead := rfl }, .finished⟩
      · split
        · exact .ret ⟨h, .finished⟩
        · refine Holds.deferring.bind fun b _ hb => ?_
          subst hb
          split
          · exact Holds.note.bind fun _ _ _ => Holds.setDeferring.bind fun _ _ _ =>
              .ret ⟨h, .finished⟩
          · refine Holds.setDeferring.bind fun _ _ _ => Holds.advance.bind fun _ _ _ => .ret ?_
            exact ⟨{ h.taken with feed := rfl, fulfilling := rfl, noLookahead := rfl },
              .processAction ⟨ha, rfl, .some (rel_getD h.get? .null), rfl⟩⟩

theorem noteState {name : String} :
    ρ.Holds (fun _ _ => True) (Evaluator.noteState frame name) (Evaluator.noteState frame' name) :=
  Holds.noteState

section

variable (N : ρ.Nested ev)
include N

theorem claimedUnit {p : Param} {v v' : Value} (h : v.Matches ρ v') :
    ρ.Holds (Value.Matches ρ) (ev.claimedUnit feed p v) (ev.claimedUnit feed p v') := by
  unfold Evaluator.claimedUnit
  split
  · exact (softEscape N h).bind fun _ _ hv => .ret (rel_getD hv .null)
  · exact .ret h

theorem lookbackQuote {v v' : Value} (h : v.Matches ρ v') :
    ρ.Holds (StepState.Matches ρ) (ev.lookbackQuote feed v) (ev.lookbackQuote feed v') := by
  refine (leftClaim? h).bind fun o o' ho => ?_
  cases ho with
  | none => exact .ret (.dispatch h)
  | @some e e' he =>
    obtain ⟨name, a, p⟩ := e
    obtain ⟨name', a', p'⟩ := e'
    obtain ⟨rfl, ha, rfl⟩ : name' = name ∧ a.Matches ρ a' ∧ p' = p := he
    refine Holds.advance.bind fun _ _ _ => Holds.advance.bind fun _ _ _ => ?_
    refine Holds.note.bind fun _ _ _ => (claimedUnit N h).bind fun _ _ hleft => ?_
    exact .ret (.processAction ⟨ha, rfl, .some hleft, rfl⟩)

theorem evalRightSide {v v' : Value} (h : frame.Matches ρ frame') (hv : v.Matches ρ v') :
    ρ.Holds (Value.Matches ρ) (ev.evalRightSide frame v) (ev.evalRightSide frame' v') := by
  have needValue : Fault.Matches ρ ((Fault.of (.needValue v.mold)).nearUnit v.mold)
      ((Fault.of (.needValue v'.mold)).nearUnit v'.mold) :=
    (Fault.Matches.of (.append hv.mold (.refl _))).nearUnit hv.mold
  unfold Evaluator.evalRightSide
  rw [h.feed]
  refine Holds.atArgumentEnd.bind fun b _ hb => ?_
  subst hb
  split
  · exact .fail needValue
  · refine N.evalExpression.bind fun o o' ho => ?_
    cases ho with
    | none => exact .fail needValue
    | some hw => exact .ret hw

theorem dispatch {v v' : Value} (h : frame.Matches ρ frame') (hv : v.Matches ρ v') :
    ρ.Holds ρ.Passes (ev.dispatch frame v) (ev.dispatch frame' v') := by
  have hright := evalRightSide N h hv
  have hinert : ρ.Passes (Evaluator.produced frame (some v))
      (Evaluator.produced frame' (some v')) := h.produced (.some hv)
  unfold Evaluator.dispatch
  rw [h.feed]
  refine Holds.advance.bind fun _ _ _ => ?_
  cases hv with
  | quoted hv => exact .ret (h.produced (.some hv))
  | word name =>
    refine Holds.bind (P := Value.Matches ρ)
      (Holds.mapFault Holds.resolve fun f f' hf => .ret (hf.nearUnit (.refl _)))
      fun w w' hw => ?_
    have hvalue := h.produced (.some hw)
    cases hw with
    | action _ ha => exact (callByWord h ha).bind fun _ _ hs => .ret ⟨h, hs⟩
    | _ => exact .ret hvalue
  | getWord name => exact Holds.resolveGet.bind fun _ _ hw => .ret (h.produced (.some hw))
  | setWord name =>
    refine hright.bind fun w w' hw => Holds.scopeOf.bind fun s _ hs => ?_
    subst hs
    exact (Holds.assign hw).bind fun _ _ _ => .ret (h.produced (.some hw))
  | sym hv => exact (evalSilenced N hv).bind fun _ _ hw => .ret (h.produced hw)
  | group hitems =>
    refine Holds.scopeOf.bind fun s _ hs => ?_
    subst hs
    exact (N.runUnits hitems).bind fun _ _ hw => .ret (h.produced hw)
  | path hitems =>
    refine (evalPath N hitems).bind fun r r' hr => ?_
    cases hr with
    | call hp => exact .ret ⟨h, .processAction hp⟩
    | value hw => exact .ret (h.produced (.some hw))
  | getPath hitems => exact (evalPathValue N hitems).bind fun _ _ hw => .ret (h.produced (.some hw))
  | setPath hitems =>
    refine hright.bind fun w w' hw => ?_
    exact (assignPath N hitems hw).bind fun _ _ _ => .ret (h.produced (.some hw))
  | action id ha =>
    refine .ret ⟨h, .processAction ⟨ha, ?_, .none, rfl⟩⟩
    exact ha.labelOr "anonymous"
  | comma => exact .ret ⟨h, .finished⟩
  | _ => exact .ret hinert

theorem processAction {p p' : PendingCall} (h : frame.Matches ρ frame') (hp : p.Matches ρ p') :
    ρ.Holds ρ.Passes (ev.processAction frame p) (ev.processAction frame' p') := by
  unfold Evaluator.processAction
  rw [h.feed]
  refine (invoke N hp).bind fun o o' ho => ?_
  cases ho with
  | none => exact .ret ⟨{ h.markStale with feed := rfl }, .postSwitch⟩
  | some hv => exact .ret ⟨{ h.set hv with feed := rfl }, .postSwitch⟩

theorem transition {state state' : StepState} (h : frame.Matches ρ frame')
    (hs : state.Matches ρ state') :
    ρ.Holds ρ.Passes (ev.transition frame state) (ev.transition frame' state') := by
  cases hs with
  | start => exact (startStep h).bind fun _ _ hs => .ret ⟨h, hs⟩
  | lookbackQuote hv =>
    unfold Evaluator.transition
    rw [h.feed]
    exact (lookbackQuote N hv).bind fun _ _ hs => .ret ⟨h, hs⟩
  | dispatch hv => exact dispatch N h hv
  | processAction hp => exact processAction N h hp
  | postSwitch => exact postSwitch h
  | finished => exact .ret ⟨h, .finished⟩

/-! ### One step -/

theorem driveOn {state state' : StepState} {next : Frame → StepState → Eval Stepped}
    (hnext : ∀ {frame frame' : Frame} {state state' : StepState}, frame.Matches ρ frame' →
      state.Matches ρ state' → ρ.Holds (Stepped.Matches ρ) (next frame state) (next frame' state'))
    (h : frame.Matches ρ frame') (hs : state.Matches ρ state') :
    ρ.Holds (Stepped.Matches ρ)
      (do
        match ← (ev.transition frame state).catchSignal with
        | .ok (frame, state) => next frame state
        | .error s =>
          Evaluator.noteState frame "thrown"
          return { frame, signal := some s })
      (do
        match ← (ev.transition frame' state').catchSignal with
        | .ok (frame, state) => next frame state
        | .error s =>
          Evaluator.noteState frame' "thrown"
          return { frame := frame', signal := some s }) := by
  refine (transition N h hs).catchSignal.bind fun r r' hr => ?_
  cases hr with
  | ok hr => exact hnext hr.1 hr.2
  | error hsignal => exact noteState.bind fun _ _ _ => .ret ⟨h, .some hsignal⟩

theorem drive {fuel : Nat} {state state' : StepState} (h : frame.Matches ρ frame')
    (hs : state.Matches ρ state') :
    ρ.Holds (Stepped.Matches ρ) (ev.drive fuel frame state) (ev.drive fuel frame' state') := by
  induction fuel generalizing frame frame' state state' with
  | zero => exact .exhaust
  | succ fuel ih =>
    have going := driveOn N ih h hs
    unfold Evaluator.drive
    rw [hs.name]
    refine noteState.bind fun _ _ _ => ?_
    cases hs with
    | finished => exact .ret ⟨h, .none⟩
    | _ => exact going

theorem evalStep (h : frame.Matches ρ frame') :
    ρ.Holds (Stepped.Matches ρ) (ev.evalStep frame) (ev.evalStep frame') := by
  unfold Evaluator.evalStep
  rw [h.feed]
  refine Holds.takeNoLookahead.bind fun b _ hb => ?_
  subst hb
  have hstart : Frame.Matches ρ { frame with out := frame.out.markStale, noLookahead := b }
      { frame' with feed := frame.feed, out := frame'.out.markStale, noLookahead := b } :=
    { h with feed := rfl, stale := rfl, noLookahead := rfl }
  refine Holds.poll.bind fun o o' ho => ?_
  cases ho with
  | some hs => exact .ret ⟨hstart, .some hs⟩
  | none =>
    refine Holds.unitsLeft.bind fun n _ hn => ?_
    subst hn
    exact drive N hstart .start

end

/-! ### Many steps -/

/-- How an evaluator steps, as far as a renumbering sees it. -/
def Steps (ρ : Renumbering) (ev : Evaluator) : Prop :=
  ∀ ⦃frame frame' : Frame⦄, frame.Matches ρ frame' →
    ρ.Holds (Stepped.Matches ρ) (ev.step frame) (ev.step frame')

theorem frameOrThrow {s s' : Stepped} (h : s.Matches ρ s') :
    ρ.Holds (Frame.Matches ρ) s.frameOrThrow s'.frameOrThrow := by
  have hsignal := h.signal
  unfold Stepped.frameOrThrow
  generalize s.signal = o, s'.signal = o' at hsignal
  cases hsignal with
  | none => exact .ret h.frame
  | some hs => exact .signal hs

variable (hsteps : ρ.Steps ev)
include hsteps

theorem stepToEnd {fuel : Nat} (h : frame.Matches ρ frame') :
    ρ.Holds (Frame.Matches ρ) (ev.stepToEnd fuel frame) (ev.stepToEnd fuel frame') := by
  induction fuel generalizing frame frame' with
  | zero =>
    unfold Evaluator.stepToEnd
    rw [h.feed]
    refine Holds.atEnd.bind fun b _ hb => ?_
    subst hb
    split
    · exact .ret h
    · exact .exhaust
  | succ fuel ih =>
    unfold Evaluator.stepToEnd
    rw [h.feed]
    refine Holds.atEnd.bind fun b _ hb => ?_
    subst hb
    split
    · exact .ret h
    · exact (hsteps h).bind fun _ _ hs => (frameOrThrow hs).bind fun _ _ hf => ih hf

theorem collect {fuel : Nat} {values values' : List Value} (h : frame.Matches ρ frame')
    (hv : Value.AllMatch ρ values values') :
    ρ.Holds (Value.AllMatch ρ) (Evaluator.reduceUnits.collect ev feed fuel frame values)
      (Evaluator.reduceUnits.collect ev feed fuel frame' values') := by
  have hreverse : Value.AllMatch ρ values.reverse values'.reverse := List.rel_reverse hv
  induction fuel generalizing frame frame' values values' with
  | zero =>
    refine Holds.atEnd.bind fun b _ hb => ?_
    subst hb
    split
    · exact .ret hreverse
    · exact .exhaust
  | succ fuel ih =>
    refine Holds.atEnd.bind fun b _ hb => ?_
    subst hb
    split
    · exact .ret hreverse
    · refine (hsteps h).bind fun _ _ hs => (frameOrThrow hs).bind fun f f' hf => ?_
      have hout := hf.get?
      generalize f.out.get? = o, f'.out.get? = o' at hout
      cases hout with
      | none => exact ih hf hv hreverse
      | some hw =>
        dsimp only
        rw [hw.isNull]
        split
        · exact ih hf hv hreverse
        · exact ih hf (.cons hw hv) (List.rel_reverse (.cons hw hv))

theorem stepToVisible {fuel : Nat} {suppressed : Bool} (h : frame.Matches ρ frame') :
    ρ.Holds (Stepped.Matches ρ) (ev.stepToVisible suppressed fuel frame)
      (ev.stepToVisible suppressed fuel frame') := by
  induction fuel generalizing frame frame' with
  | zero => exact .exhaust
  | succ fuel ih =>
    unfold Evaluator.stepToVisible
    rw [h.feed]
    refine (Holds.onlyIf fun _ => Holds.setNoLookahead).bind fun _ _ _ => ?_
    refine (hsteps h).bind fun s s' hs => ?_
    have hsignal := hs.signal
    generalize ho : s.signal = o, ho' : s'.signal = o' at hsignal
    cases hsignal with
    | some _ => exact .ret hs
    | none =>
      dsimp only
      rw [hs.frame.feed, hs.frame.stale]
      refine Holds.atArgumentEnd.bind fun b _ hb => ?_
      subst hb
      split
      · exact .ret hs
      · exact ih hs.frame

theorem stepVisible (h : frame.Matches ρ frame') :
    ρ.Holds (Stepped.Matches ρ) (ev.stepVisible frame) (ev.stepVisible frame') := by
  unfold Evaluator.stepVisible
  rw [h.feed]
  refine Holds.takeNoLookahead.bind fun b _ hb => Holds.unitsLeft.bind fun n _ hn => ?_
  subst hb hn
  exact stepToVisible hsteps h

theorem nested_of_steps : ρ.Nested ev where
  runUnits := by
    intro units units' scope h
    refine (Holds.newFeed h).bind fun feed _ hf => ?_
    subst hf
    refine Holds.withFrame fun id => Holds.unitsLeft.bind fun n _ hn => ?_
    subst hn
    exact (stepToEnd hsteps (.fresh id _ feed false)).bind fun _ _ hframe => .ret hframe.last
  evalExpression := by
    intro feed fulfilling
    refine Holds.withFrame fun id => ?_
    refine (stepVisible hsteps (.fresh id _ feed fulfilling)).bind fun _ _ hs => ?_
    exact (frameOrThrow hs).bind fun _ _ hframe => .ret hframe.get?
  reduceUnits := by
    intro units units' scope h
    refine (Holds.newFeed h).bind fun feed _ hf => ?_
    subst hf
    rw [h.length_eq]
    exact Holds.withFrame fun id => collect hsteps (.fresh id _ feed false) .nil

omit hsteps

theorem steps_stepWithin (ρ : Renumbering) (patience nesting : Nat) :
    ρ.Steps ⟨stepWithin patience nesting, patience⟩ := by
  induction nesting with
  | zero => exact fun _ _ _ => .exhaust
  | succ n ih => exact fun _ _ h => evalStep (nested_of_steps ih) h

end Renumbering

end Homoicon
