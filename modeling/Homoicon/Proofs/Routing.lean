import Homoicon.Proofs.Progress
import Homoicon.Proofs.Logic.Steps

/-!
# Where signals go

From the moment a signal is raised nothing happens but that frames are left, until something takes
the signal or the run ends with it.  Only the evaluations that are meant to take a signal do: the
body of a loop, a catch, and the body of the activation that a return is addressed to.
-/

namespace Homoicon

/-! ### Facts that grant everything -/

def Facts.all : Facts where
  native _ := True
  overflow _ := True

mutual

theorem Value.good_all : ∀ v : Value, v.Good Facts.all
  | .block items | .group items | .path items | .setPath items | .getPath items =>
    Value.goodAll_all items
  | .sym payload | .quoted payload => Value.good_all payload
  | .action _ a => Action.good_all a
  | .error _ _ => fun _ _ => trivial
  | .null | .void | .blank | .logic _ | .integer _ | .decimal _ | .text _ | .tag _ | .refinement _
  | .datatype _ | .varargs _ _ | .frame _ | .word _ | .setWord _ | .getWord _ | .comma => trivial

theorem Value.goodAll_all : ∀ items : List Value, Value.GoodAll Facts.all items
  | [] => trivial
  | v :: rest => ⟨Value.good_all v, Value.goodAll_all rest⟩

theorem Action.good_all : ∀ a : Action, a.Good Facts.all
  | .mk _ _ _ dispatcher exemplar _ _ _ =>
    ⟨Dispatcher.good_all dispatcher, Value.goodExemplar_all exemplar, fun _ _ => trivial⟩

theorem Dispatcher.good_all : ∀ d : Dispatcher, d.Good Facts.all
  | .native _ => trivial
  | .interpreted body _ => Value.goodAll_all body
  | .adapted prelude _ adaptee => ⟨Value.goodAll_all prelude, Action.good_all adaptee⟩
  | .returnTo _ => trivial

theorem Value.goodExemplar_all :
    ∀ exemplar : Option (List (Option Value)), Value.GoodExemplar Facts.all exemplar
  | none => trivial
  | some slots => Value.goodSlots_all slots

theorem Value.goodSlots_all : ∀ slots : List (Option Value), Value.GoodSlots Facts.all slots
  | [] => trivial
  | slot :: rest => ⟨Value.goodMaybe_all slot, Value.goodSlots_all rest⟩

theorem Value.goodMaybe_all : ∀ o : Option Value, Value.GoodMaybe Facts.all o
  | none => trivial
  | some v => Value.good_all v

end

theorem Machine.good_all (m : Machine) : m.Good Facts.all :=
  ⟨fun _ _ e _ => Value.good_all e.2,
    fun f _ => ⟨Value.goodAll_all f.units, Value.goodMaybe_all f.lookback⟩,
    fun _ _ e _ => Value.good_all e.2⟩

/-! ### Raising, passing and taking -/

namespace Moment

def raises? : Moment → Option Signal
  | .raised s _ => some s
  | .asked .poll m => m.poll.1
  | _ => none

/-- What may happen while a signal passes: frames are left, the state of a step is noted, and the
signal is thrown on. -/
def Passes (s : Signal) : Moment → Prop
  | .left _ _ => True
  | .asked (.noteState _ _) _ => True
  | .raised s' _ => s' = s
  | _ => False

end Moment

/-- What is known of a place is so: its frame is the innermost one, and its operation began in this
very frame. -/
structure Place.Known (past : List Moment) (m : Machine) (cur : Place) : Prop where
  frame : ∀ id, cur.frame = some id → ∃ label rest, m.stack = ⟨id, label⟩ :: rest
  call : ∀ n c, cur.call = some (n, c) →
    ∃ m', .asked (.mark (.operation n c)) m' ∈ past ∧ m'.stack = m.stack

/-- A signal is taken by an evaluation that is meant to take it, where it stands. -/
def Moment.Takes (past : List Moment) (s : Signal) : Moment → Prop
  | .asked (.mark (.taken taker s')) m =>
    s' = s ∧ taker.takes s = true ∧ ∃ cur : Place, cur.Known past m ∧ taker.Stands cur
  | _ => False

/-- A signal passes until it is taken; if nothing takes it, the run ends with it. -/
def Routed (s : Signal) (ended : Option Signal) (past : List Moment) : List Moment → Prop
  | [] => ended = some s
  | k :: rest => k.Takes past s ∨ k.Passes s ∧ Routed s ended (past ++ [k]) rest

def Lawful (ended : Option Signal) (past : List Moment) : List Moment → Prop
  | [] => True
  | k :: rest =>
    (∀ s, k.raises? = some s → Routed s ended (past ++ [k]) rest) ∧ Lawful ended (past ++ [k]) rest

theorem Routed.append {s : Signal} {e ended : Option Signal} {past t t' : List Moment}
    (h : Routed s e past t) (h' : e = some s → Routed s ended (past ++ t) t') :
    Routed s ended past (t ++ t') := by
  induction t generalizing past with
  | nil => simpa using h' h
  | cons k rest ih =>
    rcases h with htakes | ⟨hpasses, hrest⟩
    · exact .inl htakes
    · exact .inr ⟨hpasses, ih hrest (by simpa using h')⟩

theorem Lawful.append {e ended : Option Signal} {past t t' : List Moment} (h : Lawful e past t)
    (h' : Lawful ended (past ++ t) t')
    (hpass : ∀ s, e = some s → Routed s ended (past ++ t) t') : Lawful ended past (t ++ t') := by
  induction t generalizing past with
  | nil => simpa using h'
  | cons k rest ih =>
    refine ⟨fun s hs => (h.1 s hs).append ?_, ih h.2 (by simpa using h') (by simpa using hpass)⟩
    simpa using hpass s

theorem Place.Known.mono {past past' : List Moment} {m m' : Machine} {cur : Place}
    (h : cur.Known past m) (hpast : ∀ k ∈ past, k ∈ past') (hm : m'.stack = m.stack) :
    cur.Known past' m' := by
  refine ⟨fun id hid => ?_, fun n c hc => ?_⟩
  · rw [hm]
    exact h.frame id hid
  · obtain ⟨m₀, hmem, hstack⟩ := h.call n c hc
    exact ⟨m₀, hpast _ hmem, hstack.trans hm.symm⟩

theorem Place.Known.of_run {α : Type} {past : List Moment} {m m' : Machine} {cur : Place}
    {x : Eval α} {o : Outcome α} (h : cur.Known past m) (hr : x m = (o, m')) :
    cur.Known (past ++ x.trace m) m' := by
  have hstack := x.run_stack m
  rw [hr] at hstack
  exact h.mono (fun _ hk => List.mem_append_left _ hk) hstack

/-! ### Runs that route their signals -/

/-- The signal with which a run ends: one that it throws, or one that its result carries. -/
def Outcome.signalBy {α : Type} (carried : α → Option Signal) : Outcome α → Option Signal
  | .done a => carried a
  | .thrown s => some s
  | _ => none

def noSignal {α : Type} (_ : α) : Option Signal := none

def caughtSignal {α : Type} : Except Signal α → Option Signal
  | .ok _ => none
  | .error s => some s

/-- A run routes its signals, and its result satisfies `Q`. -/
structure Routes {α : Type} (carried : α → Option Signal) (Q : α → Prop) (past : List Moment)
    (x : Eval α) (m : Machine) : Prop where
  lawful : Lawful ((x m).1.signalBy carried) past (x.trace m)
  result : ∀ a m', x m = (.done a, m') → Q a

namespace Routes

variable {α β : Type} {carried : α → Option Signal} {P Q : α → Prop} {past : List Moment}
  {m : Machine}

theorem ret {a : α} (h : Q a) : Routes carried Q past (pure a) m :=
  ⟨trivial, by
    rintro _ _ ⟨⟩
    exact h⟩

theorem bind {carried' : β → Option Signal} {Q : β → Prop} {x : Eval α} {f : α → Eval β}
    (hx : Routes carried P past x m)
    (hf : ∀ a m', x m = (.done a, m') → P a →
      Routes carried' Q (past ++ x.trace m) (f a) m' ∧
      ∀ s, carried a = some s →
        Routed s ((f a m').1.signalBy carried') (past ++ x.trace m) ((f a).trace m')) :
    Routes carried' Q past (x >>= f) m := by
  have hlaw := hx.lawful
  rcases h : x m with ⟨a | s | e | _, m'⟩ <;> rw [h] at hlaw
  · obtain ⟨hrest, hpass⟩ := hf a m' h (hx.result a m' h)
    refine ⟨?_, fun b m'' hb => ?_⟩
    · rw [Eval.trace_bind, Eval.run_bind, h]
      exact hlaw.append hrest.lawful hpass
    · rw [Eval.run_bind, h] at hb
      exact hrest.result b m'' hb
  all_goals
    refine ⟨?_, fun b m'' hb => ?_⟩
    · rw [Eval.trace_bind, Eval.run_bind, h]
      simp only [List.append_nil]
      exact hlaw
    · rw [Eval.run_bind, h] at hb
      cases hb

theorem andThen {carried' : β → Option Signal} {Q : β → Prop} {x : Eval α} {f : α → Eval β}
    (hx : Routes noSignal P past x m)
    (hf : ∀ a m', x m = (.done a, m') → P a → Routes carried' Q (past ++ x.trace m) (f a) m') :
    Routes carried' Q past (x >>= f) m :=
  hx.bind fun a m' h ha => ⟨hf a m' h ha, fun s hs => by cases hs⟩

theorem signal {s : Signal} : Routes carried Q past (.signal s) m := by
  refine ⟨⟨?_, trivial⟩, ?_⟩
  · rintro _ ⟨⟩
    rfl
  · rintro _ _ ⟨⟩

theorem fail {f : Fault} : Routes carried Q past (.fail f) m :=
  ⟨⟨fun _ hs => (by cases hs), trivial⟩, fun _ _ h => by cases h⟩

theorem exhaust : Routes carried Q past .exhaust m :=
  ⟨⟨fun _ hs => (by cases hs), trivial⟩, fun _ _ h => by cases h⟩

theorem command (c : Command β) {Q : β → Prop} (h : (Moment.asked c m).raises? = none)
    (hQ : Q (c.run m).1) : Routes noSignal Q past (Eval.command c) m := by
  refine ⟨⟨fun s hs => ?_, trivial⟩, ?_⟩
  · rw [h] at hs
    cases hs
  · rintro _ _ ⟨⟩
    exact hQ

theorem catchSignal {x : Eval α} (hx : Routes noSignal Q past x m) :
    Routes caughtSignal (fun r => ∀ a, r = .ok a → Q a) past x.catchSignal m := by
  have hlaw := hx.lawful
  unfold Eval.catchSignal
  refine ⟨?_, fun r m' hr a ha => ?_⟩
  · simp only [Eval.trace, Eval.run]
    rcases h : x.run m with ⟨a | s | e | _, m'⟩ <;> rw [h] at hlaw <;>
      simp only [List.append_nil] <;> exact hlaw
  · subst ha
    rcases Eval.catchSignal_eq_done hr with ⟨_, ⟨⟩, hdone⟩ | ⟨_, ⟨⟩, -⟩
    exact hx.result a m' hdone

theorem catchFault {x : Eval α} (hx : Routes noSignal Q past x m) :
    Routes noSignal (Facts.all.Caught Q) past x.catchFault m := by
  have hlaw := hx.lawful
  unfold Eval.catchFault
  refine ⟨?_, fun r m' hr => ?_⟩
  · simp only [Eval.trace, Eval.run]
    rcases h : x.run m with ⟨a | s | e | _, m'⟩ <;> rw [h] at hlaw <;>
      simp only [List.append_nil] <;> exact hlaw
  · simp only [Eval.run] at hr
    rcases h : x.run m with ⟨b | s | e | _, m''⟩ <;> rw [h] at hr <;> cases hr
    · exact hx.result _ _ h
    · exact fun _ _ => trivial

theorem inFrame {label : Option String} {body : FrameId → Eval α}
    (h : Routes noSignal Q (past ++ [.entered label m]) (body m.nextFrame) (m.enter label)) :
    Routes noSignal Q past (.inFrame label body .done) m := by
  by_cases hroom : m.config.maxDepth ≤ m.depth
  · refine ⟨?_, fun a m' ha => ?_⟩
    · simp only [Eval.trace, hroom, if_true]
      exact ⟨fun s hs => (by cases hs), trivial⟩
    · simp only [Eval.run, hroom, if_true] at ha
      cases ha
  · have hlaw := h.lawful
    have hleft : ∀ {e : Option Signal} {t : List Moment} (m' : Machine),
        Lawful e (past ++ [.entered label m]) t →
          Lawful e past (.entered label m :: t ++ [.left m.nextFrame m']) := by
      intro e t m' ht
      refine ⟨fun s hs => (by cases hs), ht.append ?_ ?_⟩
      · exact ⟨fun s hs => (by cases hs), trivial⟩
      · exact fun s hs => .inr ⟨trivial, hs⟩
    refine ⟨?_, fun a m' ha => ?_⟩
    · simp only [Eval.trace, Eval.run, hroom, if_false]
      rcases hb : (body m.nextFrame).run (m.enter label) with ⟨a | s | e | _, m'⟩ <;>
        rw [hb] at hlaw <;> exact hleft m' hlaw
    · simp only [Eval.run, hroom, if_false] at ha
      rcases hb : (body m.nextFrame).run (m.enter label) with ⟨a | s | e | _, m''⟩ <;>
        rw [hb] at ha <;> cases ha
      exact h.result _ _ hb

theorem handle {cur : Place} {taker : Taker} {x : Eval α} {take : Signal → Eval α}
    (known : cur.Known past m) (stands : taker.Stands cur) (hx : Routes noSignal Q past x m)
    (htake : ∀ s past' m', cur.Known past' m' → taker.takes s = true →
      Routes noSignal Q past' (take s) m') : Routes noSignal Q past (x.handle taker take) m := by
  refine hx.catchSignal.bind fun r m' hr hq => ?_
  have hknown := known.of_run hr
  cases r with
  | ok a => exact ⟨ret (hq a rfl), fun s hs => by cases hs⟩
  | error s =>
    dsimp only
    split
    · rename_i htakes
      refine ⟨?_, ?_⟩
      · refine andThen (P := fun _ => True) (command _ rfl trivial) fun _ m'' h'' _ => ?_
        cases h''
        exact htake s _ m' (hknown.mono (fun _ hk => List.mem_append_left _ hk) rfl) htakes
      · rintro _ ⟨⟩
        exact .inl ⟨rfl, htakes, cur, hknown, stands⟩
    · refine ⟨signal, ?_⟩
      rintro _ ⟨⟩
      exact .inr ⟨rfl, rfl⟩

end Routes

theorem Command.raises?_plain {β : Type} {c : Command β} (h : c.IsPlain) (m : Machine) :
    (Moment.asked c m).raises? = none := by
  cases c with
  | poll => cases h
  | _ => rfl

def routing : Logic Facts.all where
  Holds cur Q x := ∀ past m, cur.Known past m → Routes noSignal Q past x m
  exempt _ := False
  patient := True
  ret h := fun _ _ _ => .ret h
  bind hx hf := fun past m known => (hx past m known).andThen fun a m' hr ha =>
    hf a ha _ m' (known.of_run hr)
  fail _ := fun _ _ _ => .fail
  signal _ := fun _ _ _ => .signal
  exhaust _ := fun _ _ _ => .exhaust
  ask c plain h := fun _ m _ =>
    .command c (c.raises?_plain plain m) (c.run_good m.good_all h).1
  handle stands hx htake := fun past m known =>
    .handle known stands (hx past m known) fun s past' m' known' ht =>
      htake s (Value.good_all _) ht past' m' known'
  catchFault hx := fun past m known => (hx past m known).catchFault
  inFrame h := fun past m _ => .inFrame (h _ _ _ ⟨fun id hid => by
      cases hid
      exact ⟨_, _, rfl⟩, fun n c hc => by cases hc⟩)
  whileTrue _ _ := .inr trivial
  host _ _ _ _ := trivial

theorem routing_begins (n : Native) (c : CallState) : routing.Begins n c := by
  constructor
  intro α cur Q x h past m known
  refine .andThen (P := fun _ => True) (.command _ rfl trivial) fun _ m' hr _ => ?_
  cases hr
  refine h (fun hf => hf) _ m ⟨known.frame, ?_⟩
  rintro _ _ ⟨⟩
  exact ⟨m, by simp, rfl⟩

/-! ### Nested code -/

namespace Routes

variable {ev : Evaluator} {frame : Frame} {past : List Moment} {m : Machine}

theorem of_holds {α : Type} {Q : α → Prop} {x : Eval α} (h : routing.Holds {} Q x)
    (past : List Moment) (m : Machine) : Routes noSignal Q past x m :=
  h past m ⟨fun _ hid => (by cases hid), fun _ _ hc => by cases hc⟩

/-- A step routes its signals; one that ends it is carried by what it leaves. -/
abbrev Stepping (x : Eval Stepped) : Prop :=
  ∀ past m, Routes Stepped.signal (fun _ => True) past x m

theorem noteState (name : String) :
    Routes noSignal (fun _ => True) past (Evaluator.noteState frame name) m :=
  .command _ rfl trivial

theorem good_frame (frame : Frame) : frame.Good Facts.all := Value.goodMaybe_all _

theorem good_state (state : StepState) : state.Good Facts.all := by
  cases state with
  | lookbackQuote unit | dispatch unit => exact Value.good_all unit
  | processAction p => exact ⟨Action.good_all p.action, Value.goodMaybe_all p.left⟩
  | _ => trivial

theorem peekNext {cur : Place} (feed : FeedId) :
    routing.Holds cur (Value.GoodMaybe Facts.all) (Eval.command (.peekNext feed)) :=
  fun _ _ _ => .command _ rfl (Value.goodMaybe_all _)

theorem lookback {cur : Place} (feed : FeedId) :
    routing.Holds cur (fun _ => True) (Eval.command (.lookback feed)) :=
  fun _ _ _ => .command _ rfl trivial

theorem unitsLeft (feed : FeedId) :
    Routes noSignal (fun _ => True) past (Eval.unitsLeft feed) m :=
  .command _ rfl trivial

theorem drive (N : routing.Nested ev) {fuel : Nat} {state : StepState} :
    Stepping (ev.drive fuel frame state) := by
  induction fuel generalizing frame state with
  | zero => exact fun _ _ => exhaust
  | succ fuel ih =>
    intro past m
    by_cases hfin : state = .finished
    · subst hfin
      exact andThen (noteState _) fun _ _ _ _ => ret trivial
    · rw [Evaluator.drive_of_ne hfin]
      refine andThen (noteState state.name) fun _ m₁ _ _ => ?_
      have htrans := of_holds (routing.transition N (routing.calls routing_begins N) (good_frame frame) (good_state state)
        (fun _ _ => peekNext frame.feed) fun _ _ => lookback frame.feed)
        (past ++ (Evaluator.noteState frame state.name).trace m) m₁
      refine htrans.catchSignal.bind fun r m₂ _ _ => ?_
      cases r with
      | ok next => exact ⟨ih _ _, fun s hs => by cases hs⟩
      | error s =>
        refine ⟨andThen (noteState "thrown") fun _ _ _ _ => ret trivial, ?_⟩
        rintro _ ⟨⟩
        exact .inr ⟨trivial, rfl⟩

theorem poll : Routes id (fun _ => True) past Eval.poll m :=
  ⟨⟨fun _ hs => hs, trivial⟩, fun _ _ _ => trivial⟩

theorem evalStep (N : routing.Nested ev) : Stepping (ev.evalStep frame) := by
  intro past m
  refine andThen (of_holds routing.takeNoLookahead past m) fun noLookahead m₁ _ _ => ?_
  refine bind poll fun s? m₂ _ _ => ?_
  cases s? with
  | some s =>
    refine ⟨ret trivial, ?_⟩
    rintro _ ⟨⟩
    rfl
  | none =>
    refine ⟨?_, fun s hs => by cases hs⟩
    exact andThen (unitsLeft _) fun _ _ _ _ => drive N _ _

theorem throwOn {β : Type} {Q : β → Prop} {x : Eval Stepped} {next : Frame → Eval β}
    (hx : Stepping x) (hnext : ∀ frame' past m, Routes noSignal Q past (next frame') m) :
    Routes noSignal Q past (x >>= fun stepped => stepped.frameOrThrow >>= next) m := by
  refine (hx past m).bind fun stepped m₁ _ _ => ?_
  unfold Stepped.frameOrThrow
  cases hs : stepped.signal with
  | some s =>
    refine ⟨signal, ?_⟩
    rintro _ ⟨⟩
    exact .inr ⟨rfl, rfl⟩
  | none => exact ⟨hnext stepped.frame _ m₁, fun s hs => by cases hs⟩

section

variable (hsteps : ∀ frame, Stepping (ev.step frame))
include hsteps

theorem stepToEnd {fuel : Nat} {past : List Moment} {m : Machine} :
    Routes noSignal (fun _ => True) past (ev.stepToEnd fuel frame) m := by
  induction fuel generalizing frame past m with
  | zero =>
    refine andThen (of_holds routing.atEnd past m) fun ended m₁ _ _ => ?_
    split
    · exact ret trivial
    · exact exhaust
  | succ fuel ih =>
    refine andThen (of_holds routing.atEnd past m) fun ended m₁ _ _ => ?_
    split
    · exact ret trivial
    · exact throwOn (hsteps frame) fun _ _ _ => ih

theorem collect {fuel : Nat} {feed : FeedId} {values : List Value} {past : List Moment}
    {m : Machine} :
    Routes noSignal (fun _ => True) past
      (Evaluator.reduceUnits.collect ev feed fuel frame values) m := by
  induction fuel generalizing frame values past m with
  | zero =>
    refine andThen (of_holds routing.atEnd past m) fun ended m₁ _ _ => ?_
    split
    · exact ret trivial
    · exact exhaust
  | succ fuel ih =>
    refine andThen (of_holds routing.atEnd past m) fun ended m₁ _ _ => ?_
    split
    · exact ret trivial
    · refine throwOn (hsteps frame) fun frame' _ _ => ?_
      split
      · exact ih
      · exact ih

theorem stepToVisible {fuel : Nat} {suppressed : Bool} :
    Stepping (ev.stepToVisible suppressed fuel frame) := by
  induction fuel generalizing frame with
  | zero => exact fun _ _ => exhaust
  | succ fuel ih =>
    intro past m
    have hset : routing.Holds {} (fun _ => True)
        (Eval.onlyIf suppressed (Eval.setNoLookahead frame.feed)) :=
      routing.onlyIf (fun _ => routing.setNoLookahead) fun _ => trivial
    refine andThen (of_holds hset past m) fun _ m₁ _ _ => ?_
    refine (hsteps frame _ m₁).bind fun stepped m₂ _ _ => ?_
    split
    · refine ⟨ret trivial, ?_⟩
      intro s hs
      exact hs
    · rename_i hs
      refine ⟨andThen (of_holds routing.atArgumentEnd _ _) fun ended m₃ _ _ => ?_, fun s hs' => ?_⟩
      · split
        · exact ret trivial
        · exact ih _ _
      · rw [hs] at hs'
        cases hs'

theorem stepVisible : Stepping (ev.stepVisible frame) := fun past m =>
  andThen (of_holds routing.takeNoLookahead past m) fun _ _ _ _ =>
    andThen (unitsLeft _) fun _ _ _ _ => stepToVisible hsteps _ _

end

theorem nested_of_steps (hsteps : ∀ frame, Stepping (ev.step frame)) : routing.Nested ev where
  runUnits _ := fun past m _ => by
    refine andThen (of_holds (routing.newFeed (Value.goodAll_all _)) past m) fun feed m₁ _ _ => ?_
    refine inFrame (andThen (unitsLeft _) fun units m₂ _ _ => ?_)
    exact andThen (stepToEnd hsteps) fun frame _ _ _ => ret (Value.goodMaybe_all _)
  evalExpression := fun past m _ => by
    exact inFrame (throwOn (stepVisible hsteps) fun _ _ _ => ret (Value.goodMaybe_all _))
  reduceUnits _ := fun past m _ => by
    refine andThen (of_holds (routing.newFeed (Value.goodAll_all _)) past m) fun feed m₁ _ _ => ?_
    refine inFrame ⟨(collect hsteps).lawful, fun values _ _ => Value.goodAll_all values⟩

theorem nested (patience nesting : Nat) :
    routing.Nested ⟨stepWithin patience nesting, patience⟩ := by
  induction nesting with
  | zero => exact nested_of_steps fun _ _ _ => exhaust
  | succ nesting ih => exact nested_of_steps fun _ => evalStep ih

end Routes

end Homoicon
