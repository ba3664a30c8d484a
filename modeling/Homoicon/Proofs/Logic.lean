import Homoicon.Evaluate.Operation.Control
import Homoicon.Proofs.Good

/-!
# A logic of evaluations

Everything the evaluator does is put together from few building blocks.  A `Logic` is a property of
evaluations that has a rule for each of them, so that it can be derived for all of the evaluator
once and for all; what the property says is a matter of each logic.

`L.Holds cur Q x` also says that the results of `x` satisfy `Q`.  The evaluation runs at `cur`.
-/

namespace Homoicon

def Signal.Good (F : Facts) (s : Signal) : Prop := s.payload.Good F

/-- Commands about which nothing more is to be said: neither a checkpoint nor a mark, nor one that
sees more of a feed than its current unit, behind it or before it. -/
def Command.IsPlain : {β : Type} → Command β → Prop
  | _, .poll => False
  | _, .mark _ => False
  | _, .feed _ => False
  | _, .peekNext _ => False
  | _, .unitsLeft _ => False
  | _, .lookback _ => False
  | _, _ => True

def Facts.Caught (F : Facts) {α : Type} (Q : α → Prop) : Except Fault α → Prop
  | .ok a => Q a
  | .error f => F.fault f

/-- Where an evaluation runs, as far as that is known. -/
structure Place where
  frame : Option FrameId := none
  /-- The operation that began in this frame, with its call. -/
  call : Option (Native × CallState) := none

/-- Where evaluations take signals: a loop around the body that it was called with, a catch with the
names that it was called with, and an interpreted body in its own frame. -/
def Taker.Stands (cur : Place) : Taker → Prop
  | .loop body => ∃ n c, cur.call = some (n, c) ∧
      (n.operation = .control .loop ∨ n.operation = .control .whileTrue) ∧ c.slot 1 = .block body
  | .catching names => ∃ n c, cur.call = some (n, c) ∧ n.operation = .control .catchThrow ∧
      names = catchNames? (c.named? "names")
  | .activation id => cur.frame = some id

/-- A property of evaluations with a rule for each way of putting them together. -/
structure Logic (F : Facts) where
  Holds : {α : Type} → Place → (α → Prop) → Eval α → Prop
  /-- Operations of which nothing is claimed. -/
  exempt : Native → Prop
  patient : Prop
  ret {α : Type} {cur : Place} {Q : α → Prop} {a : α} (h : Q a) : Holds cur Q (pure a)
  bind {α β : Type} {cur : Place} {P : α → Prop} {Q : β → Prop} {x : Eval α}
    {f : α → Eval β} (hx : Holds cur P x) (hf : ∀ a, P a → Holds cur Q (f a)) :
    Holds cur Q (x >>= f)
  fail {α : Type} {cur : Place} {Q : α → Prop} {f : Fault} (h : F.fault f) :
    Holds cur Q (.fail f)
  signal {α : Type} {cur : Place} {Q : α → Prop} {s : Signal} (h : s.Good F) :
    Holds cur Q (.signal s)
  exhaust {α : Type} {cur : Place} {Q : α → Prop} (h : patient) : Holds cur Q .exhaust
  ask {β : Type} {cur : Place} (c : Command β) (plain : c.IsPlain) (h : c.Accepts F) :
    Holds cur (c.Yields F) (Eval.command c)
  handle {α : Type} {cur : Place} {Q : α → Prop} {taker : Taker} {x : Eval α}
    {take : Signal → Eval α} (stands : taker.Stands cur) (hx : Holds cur Q x)
    (htake : ∀ s, s.Good F → taker.takes s = true → Holds cur Q (take s)) :
    Holds cur Q (x.handle taker take)
  catchFault {α : Type} {cur : Place} {Q : α → Prop} {x : Eval α} (hx : Holds cur Q x) :
    Holds cur (F.Caught Q) x.catchFault
  inFrame {α : Type} {cur : Place} {Q : α → Prop} {label : Option String}
    {body : FrameId → Eval α} (h : ∀ id, Holds { frame := some id } Q (body id)) :
    Holds cur Q (.inFrame label body .done)
  /-- Only two sorts of operations ever give up. -/
  whileTrue : ∀ n : Native, n.operation = .control .whileTrue → exempt n ∨ patient
  host : ∀ (n : Native) (op : HostOperation), F.native n → n.operation = .host op → patient

/-- The rule for an operation that begins with a call. -/
structure Logic.Begins {F : Facts} (L : Logic F) (n : Native) (c : CallState) : Prop where
  operation {α : Type} {cur : Place} {Q : α → Prop} {x : Eval α}
    (h : ¬L.exempt n → L.Holds { cur with call := some (n, c) } Q x) :
    L.Holds cur Q (Eval.command (.mark (.operation n c)) >>= fun _ => x)

namespace Logic

variable {F : Facts} {L : Logic F} {α β : Type} {cur : Place} {P Q : α → Prop}

theorem mono {x : Eval α} (h : L.Holds cur P x) (hPQ : ∀ a, P a → Q a) : L.Holds cur Q x := by
  rw [← Eval.bind_pure x]
  exact L.bind h fun a ha => L.ret (hPQ a ha)

theorem ofExcept {x : Except Fault α} (h : F.Caught Q x) : L.Holds cur Q (Eval.ofExcept x) := by
  cases x with
  | error f => exact L.fail h
  | ok a => exact L.ret h

theorem failWith {c : Cause} (h : ∀ n, c ≠ .stackOverflow n) :
    L.Holds cur Q (Eval.failWith c : Eval α) :=
  L.fail (F.fault_of h)

theorem onlyIf {b : Bool} {x : Eval Unit} {Q : Unit → Prop} (h : b = true → L.Holds cur Q x)
    (hb : b = false → Q ()) : L.Holds cur Q (Eval.onlyIf b x) := by
  cases b with
  | true => exact h rfl
  | false => exact L.ret (hb rfl)

theorem mapFault {f : Fault → Eval Fault} {x : Eval α} (hx : L.Holds cur Q x)
    (hf : ∀ e, F.fault e → L.Holds cur F.fault (f e)) : L.Holds cur Q (x.mapFault f) := by
  refine L.bind (L.catchFault hx) fun r hr => ?_
  cases r with
  | ok a => exact L.ret hr
  | error e => exact L.bind (hf e hr) fun e' he' => L.fail he'

theorem withFrame {feed : FeedId} {label : Option String} {body : Frame → Eval α}
    (h : ∀ id, L.Holds { frame := some id } Q (body { id, feed })) :
    L.Holds cur Q (withFrame feed label body) :=
  L.inFrame h

/-! ### What evaluations ask for -/

theorem command {c : Command β} (plain : c.IsPlain) (h : c.Accepts F) :
    L.Holds cur (fun _ => True) (Eval.command c) :=
  L.mono (L.ask c plain h) fun _ _ => trivial

theorem note {e : Event} : L.Holds cur (fun _ => True) (Eval.note e) := L.command trivial trivial

theorem freshIdentity : L.Holds cur (fun _ => True) Eval.freshIdentity := L.command trivial trivial

theorem newScope {parent : Option ScopeId} : L.Holds cur (fun _ => True) (Eval.newScope parent) :=
  L.command trivial trivial

theorem lookup {s : ScopeId} {name : String} :
    L.Holds cur (Value.GoodMaybe F) (Eval.lookup s name) :=
  L.ask (.lookup s name) trivial trivial

theorem define {s : ScopeId} {name : String} {v : Value} (h : v.Good F) :
    L.Holds cur (fun _ => True) (Eval.define s name v) :=
  L.command trivial h

theorem assign {s : ScopeId} {name : String} {v : Value} (h : v.Good F) :
    L.Holds cur (fun _ => True) (Eval.assign s name v) :=
  L.command trivial h

theorem newFeed {units : List Value} {s : ScopeId} (h : Value.GoodAll F units) :
    L.Holds cur (fun _ => True) (Eval.newFeed units s) :=
  L.command trivial h

theorem scopeOf {id : FeedId} : L.Holds cur (fun _ => True) (Eval.scopeOf id) :=
  L.command trivial trivial

theorem peek {id : FeedId} : L.Holds cur (Value.GoodMaybe F) (Eval.peek id) :=
  L.ask (.peek id) trivial trivial

theorem atEnd {id : FeedId} : L.Holds cur (fun _ => True) (Eval.atEnd id) :=
  L.bind L.peek fun _ _ => L.ret trivial

theorem atArgumentEnd {id : FeedId} : L.Holds cur (fun _ => True) (Eval.atArgumentEnd id) := by
  refine L.bind L.peek fun unit? _ => ?_
  split <;> exact L.ret trivial

theorem advance {id : FeedId} : L.Holds cur (fun _ => True) (Eval.advance id) :=
  L.command trivial trivial

theorem takeNoLookahead {id : FeedId} : L.Holds cur (fun _ => True) (Eval.takeNoLookahead id) :=
  L.bind (L.command trivial trivial) fun _ _ =>
    L.bind (L.command trivial trivial) fun _ _ => L.ret trivial

theorem setNoLookahead {id : FeedId} : L.Holds cur (fun _ => True) (Eval.setNoLookahead id) :=
  L.command trivial trivial

theorem deferring {id : FeedId} : L.Holds cur (fun _ => True) (Eval.deferring id) :=
  L.command trivial trivial

theorem setDeferring {id : FeedId} {b : Bool} :
    L.Holds cur (fun _ => True) (Eval.setDeferring id b) :=
  L.command trivial trivial

theorem printLine {s : String} : L.Holds cur (fun _ => True) (Eval.printLine s) :=
  L.command trivial trivial

theorem resolveGet {id : FeedId} {name : String} :
    L.Holds cur (Value.Good F) (Eval.resolveGet id name) := by
  refine L.bind L.scopeOf fun scope _ => L.bind L.lookup fun v? hv => ?_
  cases v? with
  | none => exact L.failWith (by simp)
  | some v => exact L.ret hv

theorem resolve {id : FeedId} {name : String} :
    L.Holds cur (Value.Good F) (Eval.resolve id name) := by
  refine L.bind L.resolveGet fun v hv => ?_
  split
  · exact L.failWith (by simp)
  · exact L.ret hv

end Logic

/-- How nested code is evaluated, as far as a logic sees it. -/
structure Logic.Nested {F : Facts} (L : Logic F) (ev : Evaluator) : Prop where
  runUnits {cur : Place} {units : List Value} {scope : ScopeId}
    (h : Value.GoodAll F units) : L.Holds cur (Value.GoodMaybe F) (ev.runUnits units scope)
  evalExpression {cur : Place} {feed : FeedId} {fulfilling : Bool} :
    L.Holds cur (Value.GoodMaybe F) (ev.evalExpression feed fulfilling)
  reduceUnits {cur : Place} {units : List Value} {scope : ScopeId}
    (h : Value.GoodAll F units) : L.Holds cur (Value.GoodAll F) (ev.reduceUnits units scope)

end Homoicon
