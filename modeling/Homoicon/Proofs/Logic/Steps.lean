import Homoicon.Evaluate.Step
import Homoicon.Proofs.Logic.Operations

/-!
# Calls and steps in a logic
-/

namespace Homoicon

variable {F : Facts}

def Frame.Good (F : Facts) (f : Frame) : Prop := Value.GoodMaybe F f.out.last

def StepState.Good (F : Facts) : StepState → Prop
  | .lookbackQuote unit | .dispatch unit => unit.Good F
  | .processAction p => p.Good F
  | _ => True

theorem Frame.Good.get? {f : Frame} (h : f.Good F) : Value.GoodMaybe F f.out.get? := by
  unfold OutCell.get?
  split
  · trivial
  · exact h

theorem Frame.Good.taken {f : Frame} (h : f.Good F) : Value.GoodMaybe F f.out.taken.last := by
  unfold OutCell.taken
  split
  · exact h
  · trivial

theorem Frame.Good.produced {f : Frame} {v : Option Value} (h : f.Good F)
    (hv : Value.GoodMaybe F v) :
    (Evaluator.produced f v).1.Good F ∧ (Evaluator.produced f v).2.Good F := by
  cases v with
  | none => exact ⟨h, trivial⟩
  | some v => exact ⟨hv, trivial⟩

theorem Action.adaptations_eq (a : Action) : a.adaptations = a.dispatcher.adaptations := by
  cases a
  rfl

/-- What becomes of a unit when it is known which action claims it, if one does. -/
def Evaluator.takeClaim (ev : Evaluator) (feed : FeedId) (unit : Value) :
    Option (String × Action × Param) → Eval StepState
  | none => return .dispatch unit
  | some (label, action, p) => do
    Eval.advance feed
    Eval.advance feed
    Eval.note (.leftQuoteClaimed label unit)
    let left ← ev.claimedUnit feed p unit
    return .processAction { action, label, left := some left }

theorem Evaluator.lookbackQuote_eq (ev : Evaluator) (feed : FeedId) (unit : Value) :
    ev.lookbackQuote feed unit = leftClaim? feed unit >>= ev.takeClaim feed unit := rfl

namespace Logic

variable {L : Logic F} {ev : Evaluator} {cur : Place} {frame : Frame} {c : CallState}

/-! ### Calls -/

theorem bindParams {a : Action} {scope : ScopeId} {entries : List (Nat × Param × Value)}
    (h : ∀ e ∈ entries, e.2.2.Good F) : L.Holds cur (fun _ => True) (bindParams a scope entries) := by
  induction entries with
  | nil => exact L.ret trivial
  | cons e rest ih =>
    obtain ⟨hv, hrest⟩ := List.forall_mem_cons.1 h
    exact L.bind (L.onlyIf (fun _ => L.define hv) fun _ => trivial) fun _ _ => ih hrest

theorem bodyScope {scope : ScopeId} (h : c.Good F) :
    L.Holds cur (fun _ => True) (bodyScope c scope) := by
  refine L.bind L.newScope fun _ _ => L.bind (L.bindParams fun e he => ?_) fun _ _ => L.ret trivial
  obtain ⟨⟨⟨p, v⟩, i⟩, hmem, rfl⟩ := List.mem_map.1 he
  exact Value.goodAll_iff.1 h.slots v (List.of_mem_zip (List.fst_mem_of_mem_zipIdx hmem)).2

theorem refillFrom {scope : ScopeId} {params : List (Param × Nat)} (h : c.Good F) :
    L.Holds cur (fun c' => c'.Good F ∧ c'.action = c.action) (refillFrom scope params c) := by
  induction params generalizing c with
  | nil => exact L.ret ⟨h, rfl⟩
  | cons entry rest ih =>
    unfold Homoicon.refillFrom
    split
    · refine L.bind L.lookup fun v? hv => ?_
      cases v? with
      | some v => exact ih (h.refill _ hv)
      | none => exact ih h
    · exact ih h

theorem checkAll_caught : F.Caught (fun _ => True) c.checkAll := by
  have checked : ∀ p v, F.Caught (fun _ => True) (Homoicon.checkUnless p.mayBeAbsent c.label p v) := by
    intro p v
    unfold Homoicon.checkUnless Homoicon.checkType
    split
    · trivial
    · split
      · trivial
      · exact F.fault_of (by simp)
  unfold CallState.checkAll
  generalize c.action.params.zipIdx = entries
  induction entries with
  | nil => trivial
  | cons entry rest ih =>
    show F.Caught _ (c.checkSlot entry.1 entry.2 >>= fun _ => rest.forM _)
    refine Facts.Caught.bind (P := fun _ => True) ?_ fun _ _ => ih
    unfold CallState.checkSlot
    split
    · exact checked _ _
    · exact checked _ _
    · exact checked _ _
    · exact checked _ _
    · trivial

theorem checkAll : L.Holds cur (fun _ => c.checkAll = .ok ()) (Eval.ofExcept c.checkAll) := by
  have hcaught : F.Caught (fun _ => True) c.checkAll := checkAll_caught
  cases h : c.checkAll with
  | error f =>
    rw [h] at hcaught
    exact L.fail hcaught
  | ok _ => exact L.ret rfl

theorem runBody {id : FrameId} {body : List Value} {scope : ScopeId} (N : L.Nested ev)
    (h : c.Good F) (hb : Value.GoodAll F body) :
    L.Holds { frame := some id } (Bounce.Final F) (ev.runBody id c body scope) := by
  refine L.bind (L.bodyScope h) fun inner _ => ?_
  refine L.bind (P := Value.Good F) (L.handle rfl ?_ ?_) fun result hr => ?_
  · exact L.bind (N.runUnits hb) fun _ hv => L.ret (hv.getD trivial)
  · exact fun s hs _ => L.bind L.note fun _ _ => L.ret hs
  · refine L.bind (P := fun _ => True) ?_ fun _ _ => L.ret hr
    unfold checkResult
    split
    · exact L.checkType
    · exact L.ret trivial

theorem runPrelude {prelude : List Value} {scope : ScopeId} (N : L.Nested ev) (h : c.Good F)
    (hp : Value.GoodAll F prelude) :
    L.Holds cur (fun c' => c'.Good F ∧ c'.action = c.action) (ev.runPrelude c prelude scope) :=
  L.bind (L.bodyScope h) fun _ _ => L.bind (N.runUnits hp) fun _ _ => L.refillFrom h

/-- A call goes on as another action only if it was adapted, and then its slots are checked anew, or
redirected by a host. -/
theorem runDispatcher (begins : ∀ n, c.action.dispatcher = .native n → L.Begins n c)
    (N : L.Nested ev) (h : c.Good F) :
    L.Holds { frame := some frame.id } (fun (b, c') => b.Good F ∧ c'.Good F ∧
      ∀ a checked, b = .redo a checked → a.adaptations < c.action.adaptations ∧ checked = true ∨
        ∃ n op, F.native n ∧ n.operation = .host op)
      (ev.runDispatcher frame c) := by
  have hd := (Action.good_iff.1 h.action).1
  have final : ∀ {b : Bounce}, b.Final F → b.Good F ∧ c.Good F ∧
      ∀ a checked, b = .redo a checked → a.adaptations < c.action.adaptations ∧ checked = true ∨
        ∃ n op, F.native n ∧ n.operation = .host op := by
    intro b hb
    cases b with
    | out v => exact ⟨hb, h, by simp⟩
    | invisible => exact ⟨trivial, h, by simp⟩
    | redo a checked => cases hb
  unfold Evaluator.runDispatcher
  split
  · rename_i n hn
    rw [hn] at hd
    refine (begins n hn).operation fun hexempt =>
      L.bind (L.runOperation N rfl hd h fun e => ?_) fun b hb => L.ret ?_
    · exact (L.whileTrue n e).resolve_left hexempt
    · rcases hb with hb | ⟨hb, op, hop⟩
      · exact final hb
      · exact ⟨hb, h, fun _ _ _ => .inr ⟨n, op, hd, hop⟩⟩
  · rename_i body scope hn
    rw [hn] at hd
    exact L.bind (L.runBody N h hd) fun b hb => L.ret (final hb)
  · rename_i prelude scope adaptee hn
    rw [hn] at hd
    refine L.bind (L.runPrelude N h hd.1) fun c' hc => L.ret ⟨hd.2, hc.1, ?_⟩
    rintro _ _ ⟨⟩
    rw [c.action.adaptations_eq, hn]
    exact .inl ⟨Nat.lt_succ_self _, rfl⟩
  · exact L.signal (h.slot 0)

/-- The dispatchers of a call run one after another, each after the first with slots that were checked
or redirected by a host. -/
theorem runFilled (frame : Frame) {fuel : Nat} (N : L.Nested ev) (h : c.Good F)
    (first : ∀ n, c.action.dispatcher = .native n → L.Begins n c)
    (again : ∀ c : CallState, c.Good F →
      (c.checkAll = .ok () ∨ ∃ n op, F.native n ∧ n.operation = .host op) →
        ∀ n, c.action.dispatcher = .native n → L.Begins n c)
    (hfuel : c.action.adaptations < fuel ∨ L.patient) :
    L.Holds { frame := some frame.id } (Value.GoodMaybe F) (ev.runFilled frame fuel c) := by
  induction fuel generalizing c with
  | zero => exact L.exhaust (hfuel.resolve_left (Nat.not_lt_zero _))
  | succ fuel ih =>
    refine L.bind (L.runDispatcher first N h) fun (b, c') ⟨hb, hc, hredo⟩ => ?_
    dsimp only at hb hc hredo ⊢
    cases b with
    | out v => exact L.ret hb
    | invisible => exact L.ret trivial
    | redo a checked =>
      dsimp only
      split
      · exact L.failWith (by simp)
      · have hgood : CallState.Good F { c' with action := a } := ⟨hb, hc.slots⟩
        have hredone := hredo a checked rfl
        refine L.bind L.note fun _ _ => ?_
        refine L.bind (L.onlyIf (Q := fun _ => checked = true →
          CallState.checkAll { c' with action := a } = .ok ()) (fun _ => ?_) fun hb hb' => ?_)
          fun _ hchecked => ih hgood (again _ hgood ?_) ?_
        · exact L.mono L.checkAll fun _ hok _ => hok
        · exact absurd (hb.symm.trans hb') (by simp)
        · exact hredone.imp_left fun ⟨_, hc⟩ => hchecked hc
        · rcases hfuel with hfuel | hpatient
          · rcases hredone with ⟨hlt, -⟩ | ⟨n, op, hn, hop⟩
            · exact .inl (Nat.lt_of_lt_of_le hlt (Nat.le_of_lt_succ hfuel))
            · exact .inr (L.host n op hn hop)
          · exact .inr hpatient

/-- How calls run, as far as a logic sees it. -/
structure Calls (L : Logic F) (ev : Evaluator) : Prop where
  runCall {id : FrameId} {feed : FeedId} {p : PendingCall} (h : p.Good F) :
    L.Holds { frame := some id } (Value.GoodMaybe F) (ev.runCall { id, feed } p)

theorem calls (begins : ∀ n c, L.Begins n c) (N : L.Nested ev) : L.Calls ev := by
  constructor
  intro id feed p h
  refine L.bind L.note fun _ _ => L.bind (L.fulfil N (.start h) h.left) fun c ⟨hc, ha⟩ => ?_
  have hfuel : c.action.adaptations < p.action.adaptations + 1 + ev.patience := by
    rw [ha]
    exact Nat.lt_of_lt_of_le (Nat.lt_succ_self _) (Nat.le_add_right _ _)
  exact L.runFilled { id, feed } N hc (fun n _ => begins n c) (fun c _ _ n _ => begins n c) (.inl hfuel)

theorem invoke {feed : FeedId} {p : PendingCall} (calls : L.Calls ev) (h : p.Good F)
    (hback : L.Holds cur (fun _ => True) (Eval.command (.lookback feed))) :
    L.Holds cur (Value.GoodMaybe F) (ev.invoke feed p) := by
  refine L.mapFault (L.withFrame fun id => calls.runCall h) fun f hf => ?_
  refine L.bind hback fun unit? _ => ?_
  cases unit? with
  | some unit => exact L.ret (F.fault_nearUnit hf)
  | none => exact L.ret hf

/-! ### States of a step -/

theorem wordAction? {feed : FeedId} {unit? : Option Value} :
    L.Holds cur (fun r => ∀ name a, r = some (name, a) → a.Good F) (wordAction? feed unit?) := by
  unfold Homoicon.wordAction?
  split
  · refine L.bind L.scopeOf fun _ _ => L.bind L.lookup fun v? hv => ?_
    split
    · refine L.ret ?_
      rintro _ _ ⟨⟩
      exact hv
    · exact L.ret (by simp)
  · exact L.ret (by simp)

theorem leftClaim? {feed : FeedId} {unit : Value}
    (hnext : L.Holds cur (Value.GoodMaybe F) (Eval.command (.peekNext feed))) :
    L.Holds cur (fun r => ∀ name a p, r = some (name, a, p) → a.Good F) (leftClaim? feed unit) := by
  refine L.bind hnext fun _ _ => L.bind L.wordAction? fun r hr => ?_
  split
  · rename_i name a
    refine L.ret ?_
    rintro _ _ _ h
    obtain ⟨_, -, h⟩ := Option.map_eq_some_iff.1 h
    cases h
    exact hr _ _ rfl
  · exact L.ret (by simp)

theorem takeClaim {feed : FeedId} {unit : Value} {claim : Option (String × Action × Param)}
    (N : L.Nested ev) (h : unit.Good F)
    (hclaim : ∀ name a p, claim = some (name, a, p) → a.Good F) :
    L.Holds cur (StepState.Good F) (ev.takeClaim feed unit claim) := by
  unfold Evaluator.takeClaim
  split
  · exact L.ret h
  · refine L.bind L.advance fun _ _ => L.bind L.advance fun _ _ => L.bind L.note fun _ _ => ?_
    exact L.bind (L.claimedUnit N h) fun left hl => L.ret ⟨hclaim _ _ _ rfl, hl⟩

theorem lookbackQuote {feed : FeedId} {unit : Value} (N : L.Nested ev) (h : unit.Good F)
    (hnext : L.Holds cur (Value.GoodMaybe F) (Eval.command (.peekNext feed))) :
    L.Holds cur (StepState.Good F) (ev.lookbackQuote feed unit) := by
  rw [ev.lookbackQuote_eq]
  exact L.bind (L.leftClaim? hnext) fun _ hr => L.takeClaim N h hr

theorem startStep : L.Holds cur (StepState.Good F) (Evaluator.startStep frame) := by
  refine L.bind L.peek fun unit? hu => ?_
  split
  · exact L.ret trivial
  · exact L.bind L.advance fun _ _ => L.ret trivial
  · exact L.ret hu

theorem callByWord {a : Action} {name : String} (h : a.Good F) :
    L.Holds cur (StepState.Good F) (Evaluator.callByWord frame a name) := by
  unfold Evaluator.callByWord
  split
  · exact L.ret ⟨h, trivial⟩
  · refine L.bind L.deferring fun _ _ => ?_
    split
    · exact L.failWith (by simp)
    · split
      · exact L.fail (F.fault_nearUnit (F.fault_of (by simp)))
      · exact L.ret ⟨h, trivial⟩

theorem postSwitch (h : frame.Good F) :
    L.Holds cur (fun r => r.1.Good F ∧ r.2.Good F) (postSwitch frame) := by
  refine L.bind L.peek fun next _ => L.bind L.wordAction? fun r hr => ?_
  split
  · exact L.ret ⟨h, trivial⟩
  · split
    · exact L.ret ⟨h, trivial⟩
    · split
      · exact L.bind L.note fun _ _ => L.ret ⟨h, trivial⟩
      · split
        · exact L.ret ⟨h, trivial⟩
        · refine L.bind L.deferring fun _ _ => ?_
          split
          · exact L.bind L.note fun _ _ => L.bind L.setDeferring fun _ _ => L.ret ⟨h, trivial⟩
          · refine L.bind L.setDeferring fun _ _ => L.bind L.advance fun _ _ => L.ret ?_
            exact ⟨h.taken, hr _ _ rfl, h.get?.getD trivial⟩

theorem evalRightSide {target : Value} (N : L.Nested ev) :
    L.Holds cur (Value.Good F) (ev.evalRightSide frame target) := by
  refine L.bind L.atArgumentEnd fun ended _ => ?_
  split
  · exact L.fail (F.fault_nearUnit (F.fault_of (by simp)))
  · refine L.bind N.evalExpression fun v? hv => ?_
    cases v? with
    | some v => exact L.ret hv
    | none => exact L.fail (F.fault_nearUnit (F.fault_of (by simp)))

theorem dispatch {unit : Value} (N : L.Nested ev) (h : frame.Good F) (hu : unit.Good F) :
    L.Holds cur (fun r => r.1.Good F ∧ r.2.Good F) (ev.dispatch frame unit) := by
  refine L.bind L.advance fun _ _ => ?_
  split
  · exact L.ret (h.produced hu)
  · refine L.bind (L.mapFault L.resolve fun f hf => L.ret (F.fault_nearUnit hf)) fun v hv => ?_
    split
    · exact L.bind (L.callByWord hv) fun _ hs => L.ret ⟨h, hs⟩
    · exact L.ret (h.produced hv)
  · exact L.bind L.resolveGet fun _ hv => L.ret (h.produced hv)
  · refine L.bind (L.evalRightSide N) fun v hv => L.bind L.scopeOf fun _ _ => ?_
    exact L.bind (L.assign hv) fun _ _ => L.ret (h.produced hv)
  · exact L.bind (L.evalSilenced N hu) fun _ hv => L.ret (h.produced hv)
  · refine L.bind L.scopeOf fun _ _ => L.bind (N.runUnits hu) fun _ hv => ?_
    exact L.ret (h.produced hv)
  · refine L.bind (L.evalPath N hu) fun r hr => ?_
    cases r with
    | call p => exact L.ret ⟨h, hr⟩
    | value v => exact L.ret (h.produced hr)
  · exact L.bind (L.evalPathValue N hu) fun _ hv => L.ret (h.produced hv)
  · refine L.bind (L.evalRightSide N) fun v hv => L.bind (L.assignPath N hu hv) fun _ _ => ?_
    exact L.ret (h.produced hv)
  · exact L.ret ⟨h, hu, trivial⟩
  · exact L.ret ⟨h, trivial⟩
  · exact L.ret (h.produced hu)

theorem processAction {p : PendingCall} (calls : L.Calls ev) (hp : p.Good F) (h : frame.Good F)
    (hback : L.Holds cur (fun _ => True) (Eval.command (.lookback frame.feed))) :
    L.Holds cur (fun r => r.1.Good F ∧ r.2.Good F) (ev.processAction frame p) := by
  refine L.bind (L.invoke calls hp hback) fun v? hv => ?_
  cases v? with
  | some v => exact L.ret ⟨hv, trivial⟩
  | none => exact L.ret ⟨h, trivial⟩

theorem transition {state : StepState} (N : L.Nested ev) (calls : L.Calls ev) (h : frame.Good F)
    (hs : state.Good F)
    (hnext : ∀ unit, state = .lookbackQuote unit →
      L.Holds cur (Value.GoodMaybe F) (Eval.command (.peekNext frame.feed)))
    (hback : ∀ p, state = .processAction p →
      L.Holds cur (fun _ => True) (Eval.command (.lookback frame.feed))) :
    L.Holds cur (fun r => r.1.Good F ∧ r.2.Good F) (ev.transition frame state) := by
  cases state with
  | start => exact L.bind L.startStep fun _ hs => L.ret ⟨h, hs⟩
  | lookbackQuote unit => exact L.bind (L.lookbackQuote N hs (hnext unit rfl)) fun _ hs => L.ret ⟨h, hs⟩
  | dispatch unit => exact L.dispatch N h hs
  | processAction p => exact L.processAction calls hs h (hback p rfl)
  | postSwitch => exact L.postSwitch h
  | finished => exact L.ret ⟨h, trivial⟩

end Logic

end Homoicon
