import Homoicon.Proofs.Tandem.Operations

/-!
# Calls and steps in tandem
-/

namespace Homoicon

variable {R S : Region}

theorem PendingCall.Within.mono {p : PendingCall} (h : p.Within R) (le : R ⊆ S) : p.Within S :=
  ⟨h.action.mono le, h.left.mono le⟩

structure Frame.Within (R : Region) (f : Frame) : Prop where
  feed : .feed f.feed ∈ R
  last : Value.MaybeWithin R f.out.last

def StepState.Within (R : Region) : StepState → Prop
  | .lookbackQuote unit | .dispatch unit => unit.Within R
  | .processAction p => p.Within R
  | _ => True

theorem StepState.Within.mono {state : StepState} (h : state.Within R) (le : R ⊆ S) :
    state.Within S := by
  cases state with
  | lookbackQuote unit | dispatch unit => exact Value.Within.mono h le
  | processAction p => exact PendingCall.Within.mono h le
  | _ => trivial

structure Stepped.Within (R : Region) (s : Stepped) : Prop where
  frame : s.frame.Within R
  signal : ∀ signal ∈ s.signal, signal.Within R

namespace Frame.Within

variable {f : Frame}

theorem mono (h : f.Within R) (le : R ⊆ S) : f.Within S := ⟨le h.feed, h.last.mono le⟩

theorem get? (h : f.Within R) : Value.MaybeWithin R f.out.get? := by
  unfold OutCell.get?
  split
  · exact .none
  · exact h.last

theorem taken (h : f.Within R) : Value.MaybeWithin R f.out.taken.last := by
  unfold OutCell.taken
  split
  · exact h.last
  · exact .none

theorem set (h : f.Within R) {v : Value} (hv : v.Within R) :
    Frame.Within R { f with out := f.out.set v } :=
  ⟨h.feed, .some hv⟩

theorem produced (h : f.Within R) {v : Option Value} (hv : Value.MaybeWithin R v) :
    (Evaluator.produced f v).1.Within R ∧ (Evaluator.produced f v).2.Within R := by
  cases v with
  | none => exact ⟨h, trivial⟩
  | some v => exact ⟨h.set (hv v rfl), trivial⟩

end Frame.Within

namespace Tandem

variable {T : Tandem} {ev ev' : Evaluator} {frame : Frame} {c : CallState}

/-! ### Calls -/

theorem bindParams {a : Action} {scope : ScopeId} {entries : List (Nat × Param × Value)}
    (hs : .scope scope ∈ R) (h : ∀ e ∈ entries, e.2.2.Within R) :
    T.Holds R (fun _ _ => True) (bindParams a scope entries) (bindParams a scope entries) := by
  induction entries generalizing R with
  | nil => exact T.ret trivial
  | cons e rest ih =>
    obtain ⟨hv, hrest⟩ := List.forall_mem_cons.1 h
    refine T.bind (T.onlyIf fun _ => T.define hs hv) fun _ _ le _ => ?_
    exact ih (le hs) fun e he => (hrest e he).mono le

theorem bodyScope {scope : ScopeId} (hs : .scope scope ∈ R) (h : Value.AllWithin R c.slots) :
    T.Holds R (fun S s => .scope s ∈ S) (bodyScope c scope) (bodyScope c scope) := by
  have hparent : ∀ p ∈ some scope, Handle.scope p ∈ R := by
    rintro _ ⟨⟩
    exact hs
  refine T.bind (T.newScope hparent) fun _ inner le hinner => ?_
  refine T.bind (T.bindParams hinner fun e he => ?_) fun _ _ le' _ => T.ret (le' hinner)
  obtain ⟨⟨⟨p, v⟩, i⟩, hmem, rfl⟩ := List.mem_map.1 he
  exact (h v (List.of_mem_zip (List.fst_mem_of_mem_zipIdx hmem)).2).mono le

theorem refillFrom {scope : ScopeId} {params : List (Param × Nat)} (hs : .scope scope ∈ R)
    (h : c.Within R) :
    T.Holds R CallState.Within (refillFrom scope params c) (refillFrom scope params c) := by
  induction params generalizing c R with
  | nil => exact T.ret h
  | cons entry rest ih =>
    unfold Homoicon.refillFrom
    split
    · refine T.bind (T.lookup hs) fun _ v? le hv => ?_
      cases v? with
      | some v => exact ih (le hs) ((h.mono le).refill _ (hv v rfl))
      | none => exact ih (le hs) (h.mono le)
    · exact ih hs h

theorem runBody {id : FrameId} {body : List Value} {scope : ScopeId} (N : T.Nested ev ev')
    (hs : .scope scope ∈ R) (hb : Value.AllWithin R body) (h : Value.AllWithin R c.slots) :
    T.Holds R Bounce.Within (ev.runBody id c body scope) (ev'.runBody id c body scope) := by
  refine T.bind (T.bodyScope hs h) fun _ inner le hinner => ?_
  refine T.bind (P := Value.Within) (T.handle ?_ fun _ s _ hs => ?_) fun _ result _ hr => ?_
  · exact T.bind (N.runUnits hinner (hb.mono le)) fun _ _ _ hv => T.ret (hv.getD Value.within_void)
  · exact T.bind T.note fun _ _ le' _ => T.ret (Value.Within.mono hs le')
  · exact T.bind T.check fun _ _ le' _ => T.ret (hr.mono le')

theorem runDispatcher (N : T.Nested ev ev') (hf : .feed frame.feed ∈ R) (h : c.Within R) :
    T.Holds R (fun S r => r.1.Within S ∧ r.2.Within S) (ev.runDispatcher frame c)
      (ev'.runDispatcher frame c) := by
  have hd := (Action.within_iff.1 h.action).1
  unfold Evaluator.runDispatcher
  split
  · refine T.bind (T.command trivial) fun _ _ le₁ _ => ?_
    refine T.bind (T.runOperation N ⟨le₁ hf, h.mono le₁⟩) fun _ bounce le₂ hb => T.ret ?_
    exact ⟨hb, h.mono (le₁.trans le₂)⟩
  · rename_i body scope hn
    rw [hn, Dispatcher.within_interpreted] at hd
    exact T.bind (T.runBody N hd.1 hd.2 h.slots) fun _ _ le hb => T.ret ⟨hb, h.mono le⟩
  · rename_i prelude scope adaptee hn
    rw [hn, Dispatcher.within_adapted] at hd
    obtain ⟨hs, hp, ha⟩ := hd
    refine T.bind (P := fun S c' => c'.Within S ∧ adaptee.Within S) ?_ fun _ c' _ hc =>
      T.ret ⟨hc.2, hc.1⟩
    refine T.bind (T.bodyScope hs h.slots) fun _ inner le₁ hinner => ?_
    refine T.bind (N.runUnits hinner (hp.mono le₁)) fun _ _ le₂ _ => ?_
    have le := le₁.trans le₂
    rw [← Eval.bind_pure (Homoicon.refillFrom _ _ _)]
    refine T.bind (T.refillFrom (le₂ hinner) (h.mono le)) fun _ c' le₃ hc => T.ret ?_
    exact ⟨hc, ha.mono (le.trans le₃)⟩
  · exact T.signal (h.slot 0)

theorem runFilled {fuel : Nat} (N : T.Nested ev ev') (hf : .feed frame.feed ∈ R)
    (h : c.Within R) :
    T.Holds R Value.MaybeWithin (ev.runFilled frame fuel c) (ev'.runFilled frame fuel c) := by
  induction fuel generalizing c R with
  | zero => exact T.exhaust
  | succ fuel ih =>
    refine T.bind (T.runDispatcher N hf h) fun _ (bounce, c') le₁ ⟨hb, hc⟩ => ?_
    dsimp only at hb hc ⊢
    cases bounce with
    | out v => exact T.ret (.some hb)
    | invisible => exact T.ret .none
    | redo a checked =>
      dsimp only
      split
      · exact T.failWith
      · refine T.bind T.note fun _ _ le₂ _ => T.bind (T.onlyIf fun _ => T.check) fun _ _ le₃ _ => ?_
        have le := le₂.trans le₃
        exact ih (le (le₁ hf)) ⟨hb.mono le, hc.slots.mono le⟩

theorem invoke {feed : FeedId} {p : PendingCall} (N : T.Nested ev ev') (hf : .feed feed ∈ R)
    (h : p.Within R) :
    T.Holds R Value.MaybeWithin (ev.invoke feed p) (ev'.invoke feed p) := by
  refine T.mapFault (T.withFrame fun id => ?_) fun _ f _ => ?_
  · refine T.bind T.note fun _ _ le₁ _ => ?_
    have h₁ := h.mono le₁
    refine T.bind (T.fulfil N (le₁ hf) (.start h₁) h₁.left) fun _ c le₂ hc => ?_
    rw [N.patience]
    exact T.runFilled N (le₂ (le₁ hf)) hc
  · refine T.bind (T.command trivial) fun _ unit? _ _ => ?_
    cases unit? with
    | some unit => exact T.ret trivial
    | none => exact T.ret trivial

/-! ### States of a step -/

theorem wordAction? {feed : FeedId} {unit? : Option Value} (hf : .feed feed ∈ R) :
    T.Holds R (fun S r => ∀ name a, r = some (name, a) → a.Within S) (wordAction? feed unit?)
      (wordAction? feed unit?) := by
  unfold Homoicon.wordAction?
  split
  · refine T.bind (T.scopeOf hf) fun _ _ _ hs => T.bind (T.lookup hs) fun _ v? _ hv => ?_
    split
    · refine T.ret ?_
      rintro _ _ ⟨⟩
      exact Value.within_action.1 (hv _ rfl)
    · exact T.ret (by simp)
  · exact T.ret (by simp)

theorem leftClaim? {feed : FeedId} {unit : Value} (hf : .feed feed ∈ R) :
    T.Holds R (fun S r => ∀ name a p, r = some (name, a, p) → a.Within S) (leftClaim? feed unit)
      (leftClaim? feed unit) := by
  refine T.bind (T.ask (.peekNext feed) hf) fun _ next le _ => ?_
  refine T.bind (T.wordAction? (le hf)) fun _ r _ hr => ?_
  split
  · rename_i name a
    refine T.ret ?_
    rintro _ _ _ h
    obtain ⟨_, -, h⟩ := Option.map_eq_some_iff.1 h
    cases h
    exact hr _ _ rfl
  · exact T.ret (by simp)

theorem lookbackQuote {feed : FeedId} {unit : Value} (N : T.Nested ev ev') (hf : .feed feed ∈ R)
    (h : unit.Within R) :
    T.Holds R StepState.Within (ev.lookbackQuote feed unit) (ev'.lookbackQuote feed unit) := by
  refine T.bind (T.leftClaim? hf) fun _ claim le hclaim => ?_
  split
  · exact T.ret (h.mono le)
  · refine T.bind T.advance fun _ _ le₁ _ => T.bind T.advance fun _ _ le₂ _ => ?_
    refine T.bind T.note fun _ _ le₃ _ => ?_
    have le' := le₁.trans (le₂.trans le₃)
    refine T.bind (T.claimedUnit N (le' (le hf)) (h.mono (le.trans le'))) fun _ left le₄ hl => ?_
    exact T.ret ⟨(hclaim _ _ _ rfl).mono (le'.trans le₄), .some hl⟩

theorem startStep (hf : .feed frame.feed ∈ R) :
    T.Holds R StepState.Within (Evaluator.startStep frame) (Evaluator.startStep frame) := by
  refine T.bind (T.peek hf) fun _ unit? _ hu => ?_
  split
  · exact T.ret trivial
  · exact T.bind T.advance fun _ _ _ _ => T.ret trivial
  · exact T.ret (hu _ rfl)

theorem callByWord {a : Action} {name : String} (h : a.Within R) :
    T.Holds R StepState.Within (Evaluator.callByWord frame a name)
      (Evaluator.callByWord frame a name) := by
  unfold Evaluator.callByWord
  split
  · exact T.ret ⟨h, .none⟩
  · refine T.bind T.deferring fun _ _ le _ => ?_
    split
    · exact T.failWith
    · split
      · exact T.fail
      · exact T.ret ⟨h.mono le, .some Value.within_null⟩

theorem postSwitch (h : frame.Within R) :
    T.Holds R (fun S r => r.1.Within S ∧ r.2.Within S) (postSwitch frame) (postSwitch frame) := by
  refine T.bind (T.peek h.feed) fun _ next le₁ _ => ?_
  refine T.bind (T.wordAction? (le₁ h.feed)) fun _ r le₂ hr => ?_
  have h₂ := h.mono (le₁.trans le₂)
  split
  · exact T.ret ⟨h₂, trivial⟩
  · split
    · exact T.ret ⟨h₂, trivial⟩
    · split
      · refine T.bind T.note fun _ _ le _ => T.ret ?_
        exact ⟨⟨le h₂.feed, h₂.last.mono le⟩, trivial⟩
      · split
        · exact T.ret ⟨h₂, trivial⟩
        · refine T.bind T.deferring fun _ _ le₃ _ => ?_
          split
          · refine T.bind T.note fun _ _ le₄ _ => T.bind T.setDeferring fun _ _ le₅ _ => T.ret ?_
            exact ⟨h₂.mono (le₃.trans (le₄.trans le₅)), trivial⟩
          · refine T.bind T.setDeferring fun _ _ le₄ _ => T.bind T.advance fun _ _ le₅ _ => T.ret ?_
            have le := le₃.trans (le₄.trans le₅)
            have h₅ := h₂.mono le
            refine ⟨⟨h₅.feed, h₅.taken⟩, (hr _ _ rfl).mono le, .some ?_⟩
            exact h₅.get?.getD Value.within_null

theorem evalRightSide {target : Value} (N : T.Nested ev ev') (hf : .feed frame.feed ∈ R) :
    T.Holds R Value.Within (ev.evalRightSide frame target) (ev'.evalRightSide frame target) := by
  refine T.bind (T.atArgumentEnd hf) fun _ ended le _ => ?_
  split
  · exact T.fail
  · refine T.bind (N.evalExpression (le hf)) fun _ v? _ hv => ?_
    cases v? with
    | some v => exact T.ret (hv v rfl)
    | none => exact T.fail

theorem dispatch {unit : Value} (N : T.Nested ev ev') (h : frame.Within R) (hu : unit.Within R) :
    T.Holds R (fun S r => r.1.Within S ∧ r.2.Within S) (ev.dispatch frame unit)
      (ev'.dispatch frame unit) := by
  refine T.bind T.advance fun S _ le _ => ?_
  replace h := h.mono le
  replace hu := hu.mono le
  split
  · exact T.ret (h.produced (.some hu))
  · refine T.bind (T.mapFault (T.resolve h.feed) fun _ _ _ => T.ret trivial) fun _ v le₁ hv => ?_
    split
    · refine T.bind (T.callByWord (Value.within_action.1 hv)) fun _ _ le₂ hs => T.ret ?_
      exact ⟨h.mono (le₁.trans le₂), hs⟩
    · exact T.ret ((h.mono le₁).produced (.some hv))
  · refine T.bind (T.resolveGet h.feed) fun _ _ le₁ hv => T.ret ?_
    exact (h.mono le₁).produced (.some hv)
  · refine T.bind (T.evalRightSide N h.feed) fun _ v le₁ hv => ?_
    refine T.bind (T.scopeOf (le₁ h.feed)) fun _ _ le₂ hs => ?_
    refine T.bind (T.assign hs (hv.mono le₂)) fun _ _ le₃ _ => T.ret ?_
    exact (h.mono (le₁.trans (le₂.trans le₃))).produced (.some (hv.mono (le₂.trans le₃)))
  · refine T.bind (T.evalSilenced N h.feed (Value.within_sym.1 hu)) fun _ _ le₁ hv => T.ret ?_
    exact (h.mono le₁).produced hv
  · refine T.bind (T.scopeOf h.feed) fun _ _ le₁ hs => ?_
    refine T.bind (N.runUnits hs ((Value.within_group.1 hu).mono le₁)) fun _ _ le₂ hv => T.ret ?_
    exact (h.mono (le₁.trans le₂)).produced hv
  · refine T.bind (T.evalPath N h.feed (Value.within_path.1 hu)) fun _ r le₁ hr => ?_
    cases r with
    | call p => exact T.ret ⟨h.mono le₁, hr⟩
    | value v => exact T.ret ((h.mono le₁).produced (.some hr))
  · refine T.bind (T.evalPathValue N h.feed (Value.within_getPath.1 hu)) fun _ _ le₁ hv => T.ret ?_
    exact (h.mono le₁).produced (.some hv)
  · refine T.bind (T.evalRightSide N h.feed) fun _ v le₁ hv => ?_
    have hitems := (Value.within_setPath.1 hu).mono le₁
    refine T.bind (T.assignPath N (le₁ h.feed) hitems hv) fun _ _ le₂ _ => T.ret ?_
    exact (h.mono (le₁.trans le₂)).produced (.some (hv.mono le₂))
  · exact T.ret ⟨h, Value.within_action.1 hu, .none⟩
  · exact T.ret ⟨h, trivial⟩
  · exact T.ret (h.produced (.some hu))

theorem processAction {p : PendingCall} (N : T.Nested ev ev') (h : frame.Within R)
    (hp : p.Within R) :
    T.Holds R (fun S r => r.1.Within S ∧ r.2.Within S) (ev.processAction frame p)
      (ev'.processAction frame p) := by
  refine T.bind (T.invoke N h.feed hp) fun _ v? le hv => ?_
  cases v? with
  | some v => exact T.ret ⟨(h.mono le).set (hv v rfl), trivial⟩
  | none => exact T.ret ⟨⟨le h.feed, h.last.mono le⟩, trivial⟩

theorem transition {state : StepState} (N : T.Nested ev ev') (h : frame.Within R)
    (hs : state.Within R) :
    T.Holds R (fun S r => r.1.Within S ∧ r.2.Within S) (ev.transition frame state)
      (ev'.transition frame state) := by
  cases state with
  | start => exact T.bind (T.startStep h.feed) fun _ _ le hs => T.ret ⟨h.mono le, hs⟩
  | lookbackQuote unit =>
    exact T.bind (T.lookbackQuote N h.feed hs) fun _ _ le hs => T.ret ⟨h.mono le, hs⟩
  | dispatch unit => exact T.dispatch N h hs
  | processAction p => exact T.processAction N h hs
  | postSwitch => exact T.postSwitch h
  | finished => exact T.ret ⟨h, trivial⟩

/-! ### One step -/

theorem noteState {name : String} :
    T.Holds R (fun _ _ => True) (Evaluator.noteState frame name) (Evaluator.noteState frame name) :=
  T.command trivial

theorem drive {fuel : Nat} {state : StepState} (N : T.Nested ev ev') (h : frame.Within R)
    (hs : state.Within R) :
    T.Holds R Stepped.Within (ev.drive fuel frame state) (ev'.drive fuel frame state) := by
  induction fuel generalizing frame state R with
  | zero => exact T.exhaust
  | succ fuel ih =>
    refine T.bind T.noteState fun _ _ le₁ _ => ?_
    split
    · exact T.ret ⟨h.mono le₁, by simp⟩
    · refine T.bind (T.catchSignal (T.transition N (h.mono le₁) (hs.mono le₁))) fun _ r le₂ hr => ?_
      cases r with
      | ok r => exact ih hr.1 hr.2
      | error s =>
        refine T.bind T.noteState fun _ _ le₃ _ => T.ret ⟨h.mono (le₁.trans (le₂.trans le₃)), ?_⟩
        rintro _ ⟨⟩
        exact Value.Within.mono hr le₃

theorem evalStep (N : T.Nested ev ev') (h : frame.Within R) :
    T.Holds R Stepped.Within (ev.evalStep frame) (ev'.evalStep frame) := by
  refine T.bind T.takeNoLookahead fun _ noLookahead le₁ _ => ?_
  refine T.bind (T.ask .poll trivial) fun _ s? le₂ hs => ?_
  have h₂ := h.mono (le₁.trans le₂)
  cases s? with
  | some s => exact T.ret ⟨⟨h₂.feed, h₂.last⟩, hs⟩
  | none =>
    refine T.bind (T.command trivial) fun _ units le₃ _ => T.drive N ?_ trivial
    exact ⟨le₃ h₂.feed, h₂.last.mono le₃⟩

/-! ### Many steps -/

def Steps (T : Tandem) (ev ev' : Evaluator) : Prop :=
  ∀ {R : Region} {frame : Frame}, frame.Within R →
    T.Holds R Stepped.Within (ev.step frame) (ev'.step frame)

theorem frameOrThrow {stepped : Stepped} (h : stepped.Within R) :
    T.Holds R Frame.Within stepped.frameOrThrow stepped.frameOrThrow := by
  unfold Stepped.frameOrThrow
  split
  · exact T.signal (h.signal _ ‹_›)
  · exact T.ret h.frame

theorem stepToEnd {fuel : Nat} (hsteps : T.Steps ev ev') (h : frame.Within R) :
    T.Holds R Frame.Within (ev.stepToEnd fuel frame) (ev'.stepToEnd fuel frame) := by
  induction fuel generalizing frame R with
  | zero =>
    refine T.bind (T.atEnd h.feed) fun _ ended le _ => ?_
    split
    · exact T.ret (h.mono le)
    · exact T.exhaust
  | succ fuel ih =>
    refine T.bind (T.atEnd h.feed) fun _ ended le _ => ?_
    split
    · exact T.ret (h.mono le)
    · refine T.bind (hsteps (h.mono le)) fun _ stepped _ hst => ?_
      exact T.bind (T.frameOrThrow hst) fun _ frame _ hframe => ih hframe

theorem collect {fuel : Nat} {feed : FeedId} {values : List Value} (hsteps : T.Steps ev ev')
    (hf : .feed feed ∈ R) (h : frame.Within R) (hv : Value.AllWithin R values) :
    T.Holds R Value.AllWithin (Evaluator.reduceUnits.collect ev feed fuel frame values)
      (Evaluator.reduceUnits.collect ev' feed fuel frame values) := by
  induction fuel generalizing frame values R with
  | zero =>
    refine T.bind (T.atEnd hf) fun _ ended le _ => ?_
    split
    · exact T.ret (hv.mono le).reverse
    · exact T.exhaust
  | succ fuel ih =>
    refine T.bind (T.atEnd hf) fun _ ended le₁ _ => ?_
    split
    · exact T.ret (hv.mono le₁).reverse
    · refine T.bind (hsteps (h.mono le₁)) fun _ stepped le₂ hst => ?_
      refine T.bind (T.frameOrThrow hst) fun _ frame le₃ hframe => ?_
      have le := le₁.trans (le₂.trans le₃)
      split
      · rename_i v hout
        refine ih (le hf) hframe ?_
        split
        · exact hv.mono le
        · exact .cons (hframe.get? v hout) (hv.mono le)
      · exact ih (le hf) hframe (hv.mono le)

theorem stepToVisible {fuel : Nat} {suppressed : Bool} (hsteps : T.Steps ev ev')
    (h : frame.Within R) :
    T.Holds R Stepped.Within (ev.stepToVisible suppressed fuel frame)
      (ev'.stepToVisible suppressed fuel frame) := by
  induction fuel generalizing frame R with
  | zero => exact T.exhaust
  | succ fuel ih =>
    refine T.bind (T.onlyIf fun _ => T.setNoLookahead) fun _ _ le₁ _ => ?_
    refine T.bind (hsteps (h.mono le₁)) fun _ stepped _ hst => ?_
    split
    · exact T.ret hst
    · rename_i hnone
      refine T.bind (T.atArgumentEnd hst.frame.feed) fun _ ended le₂ _ => ?_
      split
      · exact T.ret ⟨hst.frame.mono le₂, by simp [hnone]⟩
      · exact ih (hst.frame.mono le₂)

theorem stepVisible (hsteps : T.Steps ev ev') (h : frame.Within R) :
    T.Holds R Stepped.Within (ev.stepVisible frame) (ev'.stepVisible frame) := by
  refine T.bind T.takeNoLookahead fun _ suppressed le₁ _ => ?_
  refine T.bind (T.command trivial) fun _ units le₂ _ => ?_
  exact T.stepToVisible hsteps (h.mono (le₁.trans le₂))

/-- Nested code runs in tandem if the steps do that it is run by.  These may be compared by another
tandem, as long as a frame leads from the one to the other. -/
theorem nested_of_steps {T : Tandem} (T' : Tandem) (hpatience : ev'.patience = ev.patience)
    (hsteps : T'.Steps ev ev')
    (enter : ∀ {α : Type} {R : Region} {Q : Region → α → Prop} {feed : FeedId}
      {body body' : Frame → Eval α},
      (∀ id, T'.Holds R Q (body { id, feed }) (body' { id, feed })) →
      T.Holds R Q (Homoicon.withFrame feed none body) (Homoicon.withFrame feed none body')) :
    T.Nested ev ev' := by
  have fresh : ∀ {R : Region} {id : FrameId} {feed : FeedId}, Handle.feed feed ∈ R →
      Frame.Within R { id, feed } := fun hf => ⟨hf, .none⟩
  refine ⟨hpatience, ?_, ?_, ?_⟩
  · intro R units scope hs hunits
    refine T.bind (T.newFeed hs hunits) fun _ feed _ hf => enter fun id => ?_
    refine T'.bind (T'.command trivial) fun _ left le _ => ?_
    refine T'.bind (T'.stepToEnd hsteps (fresh (le hf))) fun _ frame _ hframe => ?_
    exact T'.ret hframe.last
  · intro R feed fulfilling hf
    refine enter fun id => ?_
    refine T'.bind (T'.stepVisible hsteps ⟨hf, .none⟩) fun _ stepped _ hst => ?_
    exact T'.bind (T'.frameOrThrow hst) fun _ frame _ hframe => T'.ret hframe.get?
  · intro R units scope hs hunits
    refine T.bind (T.newFeed hs hunits) fun _ feed _ hf => enter fun id => ?_
    exact T'.collect hsteps hf (fresh hf) .nil

end Tandem

end Homoicon
