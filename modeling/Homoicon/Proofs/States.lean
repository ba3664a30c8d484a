import Homoicon.Proofs.Return

/-!
# The states of a step

The driver of a step notes every state that it comes to.  Nested code is stepped in frames of its
own, so the states that are noted in a run at the depth at which it began are those of its own
drivers.  A transition from one state to the next drives no step at its own depth.
-/

namespace Homoicon

/-! ### The states of a step -/

/-- The name of a state that is noted at this depth. -/
def Moment.state? (depth : Nat) : Moment → Option String
  | .asked (.noteState _ name) m => if m.depth = depth then some name else none
  | _ => none

theorem Moment.state?_of_deeper {depth : Nat} {k : Moment} (h : depth < k.before.depth) :
    k.state? depth = none := by
  cases k with
  | asked c m =>
    cases c with
    | noteState id name => exact if_neg (Nat.ne_of_gt h)
    | _ => rfl
  | _ => rfl

theorem Machine.Under.depth_le {m₀ m : Machine} (h : m₀.Under m) : m₀.depth ≤ m.depth := by
  obtain ⟨above, hstack, -⟩ := h
  rw [depth, depth, hstack, List.length_append]
  exact Nat.le_add_left _ _

namespace Eval

variable {α β : Type}

/-- The states that step drivers go through in a run, in frames further in apart: those of nested
steps are noted deeper down. -/
def states (x : Eval α) (m : Machine) : List String :=
  (x.trace m).filterMap (Moment.state? m.depth)

theorem states_bind (x : Eval α) (f : α → Eval β) (m : Machine) :
    (x >>= f).states m = x.states m ++
      match x m with
      | (.done a, m') => (f a).states m'
      | _ => [] := by
  have hdepth : (x m).2.depth = m.depth := congrArg List.length (x.run_stack m)
  unfold states
  rw [trace_bind, List.filterMap_append]
  rcases h : x m with ⟨_ | _ | _ | _, m'⟩
  · rw [h] at hdepth
    dsimp only at hdepth ⊢
    rw [hdepth]
  all_goals rfl

theorem states_catchSignal (x : Eval α) (m : Machine) : x.catchSignal.states m = x.states m := by
  rw [states, x.trace_catchSignal, states]

theorem states_catchFault (x : Eval α) (m : Machine) : x.catchFault.states m = x.states m := by
  rw [states, x.trace_catchFault, states]

theorem states_withFrame (feed : FeedId) (label : Option String) (body : Frame → Eval α)
    (m : Machine) : (withFrame feed label body).states m = [] := by
  unfold states
  by_cases hroom : m.config.maxDepth ≤ m.depth
  · rw [(withFrame_refused feed label body hroom).2]
    rfl
  · have hbody : ((body { id := m.nextFrame, feed }).trace (m.enter label)).filterMap
        (Moment.state? m.depth) = [] := by
      rw [List.filterMap_eq_nil_iff]
      intro k hk
      have hunder := (trace_under _ _ k hk).depth_le
      exact Moment.state?_of_deeper (Nat.lt_of_lt_of_le (Nat.lt_succ_self _) hunder)
    rw [withFrame_entered feed label body (Nat.lt_of_not_le hroom), List.filterMap_append,
      List.filterMap_cons_none rfl, hbody]
    rfl

/-- No step is driven in a run but in frames further in. -/
def Stepless (x : Eval α) : Prop := ∀ m, x.states m = []

namespace Stepless

variable {x : Eval α} {f : α → Eval β}

theorem pure (a : α) : Stepless (Pure.pure a) := fun _ => rfl

theorem fail (e : Fault) : Stepless (Eval.fail e : Eval α) := fun _ => rfl

theorem command {c : Command β} (h : ∀ depth m, Moment.state? depth (.asked c m) = none) :
    Stepless (Eval.command c) := fun m => by
  rw [states, trace_command, List.filterMap_cons_none (h _ _)]
  rfl

theorem bind (hx : x.Stepless) (hf : ∀ a, (f a).Stepless) : (x >>= f).Stepless := by
  intro m
  rw [states_bind, hx m]
  rcases x m with ⟨a | _ | _ | _, m'⟩
  · exact hf a m'
  all_goals rfl

theorem withFrame (feed : FeedId) (label : Option String) (body : Frame → Eval α) :
    (withFrame feed label body).Stepless :=
  states_withFrame feed label body

theorem mapFault {f : Fault → Eval Fault} (hx : x.Stepless) (hf : ∀ e, (f e).Stepless) :
    (x.mapFault f).Stepless := by
  refine .bind (fun m => (states_catchFault x m).trans (hx m)) fun r => ?_
  cases r with
  | ok a => exact .pure a
  | error e => exact .bind (hf e) fun e => .fail e

end Stepless

/-! ### Nothing but a driver notes states -/

theorem peek_stepless (feed : FeedId) : (peek feed).Stepless := .command fun _ _ => rfl

theorem scopeOf_stepless (feed : FeedId) : (scopeOf feed).Stepless := .command fun _ _ => rfl

theorem lookup_stepless (scope : ScopeId) (name : String) : (lookup scope name).Stepless :=
  .command fun _ _ => rfl

theorem assign_stepless (scope : ScopeId) (name : String) (v : Value) :
    (assign scope name v).Stepless :=
  .command fun _ _ => rfl

theorem advance_stepless (feed : FeedId) : (advance feed).Stepless := .command fun _ _ => rfl

theorem note_stepless (e : Event) : (note e).Stepless := .command fun _ _ => rfl

theorem atArgumentEnd_stepless (feed : FeedId) : (atArgumentEnd feed).Stepless := by
  refine .bind (peek_stepless feed) fun unit? => ?_
  split <;> exact .pure _

theorem resolveGet_stepless (feed : FeedId) (name : String) : (resolveGet feed name).Stepless := by
  refine .bind (scopeOf_stepless feed) fun scope => .bind (lookup_stepless scope name) fun v? => ?_
  cases v? with
  | some v => exact .pure v
  | none => exact .fail _

theorem resolve_stepless (feed : FeedId) (name : String) : (resolve feed name).Stepless := by
  refine .bind (resolveGet_stepless feed name) fun v => ?_
  split
  · exact .fail _
  · exact .pure _

end Eval

namespace Evaluator

open Eval

variable {ev : Evaluator} {feed : FeedId} {frame : Frame}

theorem runUnits_stepless (units : List Value) (scope : ScopeId) :
    (ev.runUnits units scope).Stepless :=
  .bind (.command fun _ _ => rfl) fun feed => .withFrame feed none _

theorem evalExpression_stepless (feed : FeedId) (fulfilling : Bool) :
    (ev.evalExpression feed fulfilling).Stepless :=
  .withFrame feed none _

theorem evalPathGroup_stepless (items : List Value) : (ev.evalPathGroup feed items).Stepless :=
  .bind (scopeOf_stepless feed) fun scope => .bind (runUnits_stepless items scope) fun _ => .pure _

theorem segmentRequest_stepless (segment : Value) : (ev.segmentRequest feed segment).Stepless := by
  unfold segmentRequest
  split
  · exact .pure _
  · refine .bind (evalPathGroup_stepless _) fun v => ?_
    split
    · exact .pure _
    · exact .pure _
    · exact .pure _
    · exact .pure _
    · exact .fail _
  · exact .fail _

theorem requestsOf_stepless (found : List String) (segments : List Value) :
    (ev.requestsOf feed found segments).Stepless := by
  induction segments generalizing found with
  | nil => exact .pure found
  | cons segment rest ih =>
    refine .bind (segmentRequest_stepless segment) fun name? => ?_
    cases name? with
    | none => exact ih found
    | some name =>
      dsimp only
      split
      · exact .fail _
      · exact ih _

theorem segmentKey_stepless (segment : Value) : (ev.segmentKey feed segment).Stepless := by
  unfold segmentKey
  split
  · exact evalPathGroup_stepless _
  · exact .pure _

theorem pickAlong_stepless (whole : List Value) (v : Value) (segments : List Value) :
    (ev.pickAlong feed whole v segments).Stepless := by
  induction segments generalizing v with
  | nil => exact .pure v
  | cons segment rest ih =>
    refine .bind (segmentKey_stepless segment) fun key => .bind ?_ fun picked? => ?_
    · unfold pick
      split
      · exact .command fun _ _ => rfl
      · exact .pure _
    · cases picked? with
      | some v => exact ih v
      | none => exact .fail _

theorem pathHead_stepless (whole : List Value) (head : Value) :
    (ev.pathHead feed whole head).Stepless := by
  unfold pathHead
  split
  · exact .bind (resolve_stepless feed _) fun _ => .pure _
  · exact .bind (evalPathGroup_stepless _) fun _ => .pure _
  · split
    · exact .pure _
    · exact .fail _

theorem evalPath_stepless (items : List Value) (invoke : Bool) :
    (ev.evalPath feed items invoke).Stepless := by
  cases items with
  | nil => exact .fail _
  | cons head segments =>
    refine .bind (pathHead_stepless _ head) fun (v, label) => ?_
    dsimp only
    split
    · split
      · exact .bind (requestsOf_stepless [] segments) fun _ => .pure _
      · split
        · exact .pure _
        · exact .fail _
    · exact .bind (pickAlong_stepless _ v segments) fun _ => .pure _

theorem evalPathValue_stepless (items : List Value) : (ev.evalPathValue feed items).Stepless := by
  refine .bind (evalPath_stepless items false) fun r => ?_
  cases r with
  | value v => exact .pure v
  | call p => exact .fail _

theorem assignPath_stepless (items : List Value) (v : Value) :
    (ev.assignPath feed items v).Stepless := by
  unfold assignPath
  split
  · refine .bind (segmentKey_stepless _) fun key => .bind (resolve_stepless feed _) fun target => ?_
    split
    · split
      · exact .bind (scopeOf_stepless feed) fun scope => assign_stepless scope _ _
      · exact .fail _
    · exact .fail _
  · exact .fail _

theorem softEscape_stepless (unit : Value) : (ev.softEscape feed unit).Stepless := by
  unfold softEscape
  split
  · exact .bind (scopeOf_stepless feed) fun scope => runUnits_stepless _ scope
  · exact .bind (resolveGet_stepless feed _) fun _ => .pure _
  · exact .bind (evalPathValue_stepless _) fun _ => .pure _
  · exact .pure _

theorem evalSilenced_stepless (payload : Value) : (ev.evalSilenced feed payload).Stepless := by
  unfold evalSilenced
  split
  · exact .bind (resolveGet_stepless feed _) fun _ => .pure _
  · exact .bind (scopeOf_stepless feed) fun scope => runUnits_stepless _ scope
  · exact .bind (evalPathValue_stepless _) fun _ => .pure _
  · exact .bind (evalPathValue_stepless _) fun _ => .pure _
  · exact .pure _

theorem wordAction?_stepless (unit? : Option Value) : (wordAction? feed unit?).Stepless := by
  unfold wordAction?
  split
  · refine .bind (scopeOf_stepless feed) fun scope => .bind (lookup_stepless scope _) fun v? => ?_
    split <;> exact .pure _
  · exact .pure _

theorem evalRightSide_stepless (target : Value) : (ev.evalRightSide frame target).Stepless := by
  refine .bind (atArgumentEnd_stepless frame.feed) fun ended => ?_
  split
  · exact .fail _
  · refine .bind (evalExpression_stepless frame.feed false) fun v? => ?_
    cases v? with
    | some v => exact .pure v
    | none => exact .fail _

theorem startStep_stepless : (startStep frame).Stepless := by
  refine .bind (peek_stepless frame.feed) fun unit? => ?_
  split
  · exact .pure _
  · exact .bind (advance_stepless frame.feed) fun _ => .pure _
  · exact .pure _

theorem lookbackQuote_stepless (unit : Value) : (ev.lookbackQuote feed unit).Stepless := by
  have hclaim : (leftClaim? feed unit).Stepless := by
    refine .bind (.command fun _ _ => rfl) fun next => ?_
    refine .bind (wordAction?_stepless next) fun found => ?_
    cases found with
    | some claim => exact .pure _
    | none => exact .pure _
  refine .bind hclaim fun claim => ?_
  split
  · exact .pure _
  · refine .bind (advance_stepless feed) fun _ => .bind (advance_stepless feed) fun _ =>
      .bind (note_stepless _) fun _ => .bind ?_ fun _ => .pure _
    unfold claimedUnit
    split
    · exact .bind (softEscape_stepless unit) fun _ => .pure _
    · exact .pure _

theorem callByWord_stepless (a : Action) (name : String) : (callByWord frame a name).Stepless := by
  unfold callByWord
  split
  · exact .pure _
  · refine .bind (.command fun _ _ => rfl) fun deferring => ?_
    split
    · exact .fail _
    · split
      · exact .fail _
      · exact .pure _

theorem dispatch_stepless (unit : Value) : (ev.dispatch frame unit).Stepless := by
  refine .bind (advance_stepless frame.feed) fun _ => ?_
  split
  · exact .pure _
  · refine .bind (.mapFault (resolve_stepless frame.feed _) fun _ => .pure _) fun v => ?_
    split
    · exact .bind (callByWord_stepless _ _) fun _ => .pure _
    · exact .pure _
  · exact .bind (resolveGet_stepless frame.feed _) fun _ => .pure _
  · exact .bind (evalRightSide_stepless _) fun _ => .bind (scopeOf_stepless frame.feed) fun scope =>
      .bind (assign_stepless scope _ _) fun _ => .pure _
  · exact .bind (evalSilenced_stepless _) fun _ => .pure _
  · exact .bind (scopeOf_stepless frame.feed) fun scope =>
      .bind (runUnits_stepless _ scope) fun _ => .pure _
  · refine .bind (evalPath_stepless _ true) fun r => ?_
    cases r with
    | call p => exact .pure _
    | value v => exact .pure _
  · exact .bind (evalPathValue_stepless _) fun _ => .pure _
  · exact .bind (evalRightSide_stepless _) fun v =>
      .bind (assignPath_stepless _ v) fun _ => .pure _
  · exact .pure _
  · exact .pure _
  · exact .pure _

theorem processAction_stepless (p : PendingCall) : (ev.processAction frame p).Stepless := by
  have hinvoke : (ev.invoke frame.feed p).Stepless := by
    refine .mapFault (.withFrame _ _ _) fun f => .bind (.command fun _ _ => rfl) fun unit? => ?_
    cases unit? with
    | some unit => exact .pure _
    | none => exact .pure _
  refine .bind hinvoke fun v? => ?_
  cases v? with
  | some v => exact .pure _
  | none => exact .pure _

theorem postSwitch_stepless : (postSwitch frame).Stepless := by
  refine .bind (peek_stepless frame.feed) fun next => ?_
  refine .bind (wordAction?_stepless next) fun found => ?_
  split
  · exact .pure _
  · split
    · exact .pure _
    · split
      · exact .bind (note_stepless _) fun _ => .pure _
      · split
        · exact .pure _
        · refine .bind (.command fun _ _ => rfl) fun deferring => ?_
          split
          · exact .bind (note_stepless _) fun _ => .bind (.command fun _ _ => rfl) fun _ => .pure _
          · exact .bind (.command fun _ _ => rfl) fun _ =>
              .bind (advance_stepless frame.feed) fun _ => .pure _

theorem transition_stepless (state : StepState) : (ev.transition frame state).Stepless := by
  cases state with
  | start => exact .bind startStep_stepless fun _ => .pure _
  | lookbackQuote unit => exact .bind (lookbackQuote_stepless unit) fun _ => .pure _
  | dispatch unit => exact dispatch_stepless unit
  | processAction p => exact processAction_stepless p
  | postSwitch => exact postSwitch_stepless
  | finished => exact .pure _

end Evaluator

end Homoicon
