import Homoicon.Proofs.References

/-!
# Evaluations in tandem

Two evaluations that are put together alike can be compared piece by piece.  A `Tandem` is a relation
of two evaluations with a rule for each building block, so that it can be derived for all of the
evaluator once and for all; how the two are compared is a matter of each tandem.

`T.Holds R Q x x'` also says that `x` refers to nothing outside of the region `R`.  A run makes new
scopes and feeds, so `Q` is about a region that may have grown.
-/

namespace Homoicon

/-- What a command may refer to. -/
def Command.Within (R : Region) : {β : Type} → Command β → Prop
  | _, .lookup scope _ => .scope scope ∈ R
  | _, .newScope parent => ∀ p ∈ parent, .scope p ∈ R
  | _, .define scope _ v | _, .assign scope _ v => .scope scope ∈ R ∧ v.Within R
  | _, .newFeed units scope => .scope scope ∈ R ∧ Value.AllWithin R units
  | _, .scopeOf id | _, .peek id | _, .peekNext id => .feed id ∈ R
  | _, .reify _ arguments => ∀ e ∈ arguments, e.2.Within R
  | _, .frameArgument id _ => .frame id ∈ R
  | _, _ => True

/-- What the answer to a command refers to.  The unit consumed last is only ever shown, so nothing is
said of it. -/
def Command.Answers : {β : Type} → Command β → Region → β → Prop
  | _, .lookup _ _, R, v? | _, .peek _, R, v? | _, .peekNext _, R, v?
  | _, .frameArgument _ _, R, v? => Value.MaybeWithin R v?
  | _, .newScope _, R, s | _, .scopeOf _, R, s => .scope s ∈ R
  | _, .newFeed _ _, R, f => .feed f ∈ R
  | _, .reify id _, R, _ => .frame id ∈ R
  | _, .poll, R, s? => ∀ s ∈ s?, s.payload.Within R
  | _, _, _, _ => True

def Signal.Within (R : Region) (s : Signal) : Prop := s.payload.Within R

/-- What is known of a result or a signal that was seen. -/
def SignalSeen {α : Type} (Q : Region → α → Prop) (R : Region) : Except Signal α → Prop
  | .ok a => Q R a
  | .error s => s.Within R

def FaultSeen {α : Type} (Q : Region → α → Prop) (R : Region) : Except Fault α → Prop
  | .ok a => Q R a
  | .error _ => True

/-- A relation of two evaluations with a rule for each way of putting them together. -/
structure Tandem where
  Holds : {α : Type} → Region → (Region → α → Prop) → Eval α → Eval α → Prop
  ret {α : Type} {R : Region} {Q : Region → α → Prop} {a : α} (h : Q R a) :
    Holds R Q (pure a) (pure a)
  bind {α β : Type} {R : Region} {P : Region → α → Prop} {Q : Region → β → Prop} {x x' : Eval α}
    {f f' : α → Eval β} (hx : Holds R P x x')
    (hf : ∀ S a, R ⊆ S → P S a → Holds S Q (f a) (f' a)) : Holds R Q (x >>= f) (x' >>= f')
  fail {α : Type} {R : Region} {Q : Region → α → Prop} {f : Fault} : Holds R Q (.fail f) (.fail f)
  signal {α : Type} {R : Region} {Q : Region → α → Prop} {s : Signal} (h : s.Within R) :
    Holds R Q (.signal s) (.signal s)
  exhaust {α : Type} {R : Region} {Q : Region → α → Prop} : Holds R Q .exhaust .exhaust
  ask {β : Type} {R : Region} (c : Command β) (h : c.Within R) :
    Holds R c.Answers (Eval.command c) (Eval.command c)
  catchSignal {α : Type} {R : Region} {Q : Region → α → Prop} {x x' : Eval α}
    (hx : Holds R Q x x') : Holds R (SignalSeen Q) x.catchSignal x'.catchSignal
  catchFault {α : Type} {R : Region} {Q : Region → α → Prop} {x x' : Eval α}
    (hx : Holds R Q x x') : Holds R (FaultSeen Q) x.catchFault x'.catchFault
  inFrame {α : Type} {R : Region} {Q : Region → α → Prop} {label : Option String}
    {body body' : FrameId → Eval α} (h : ∀ id, Holds R Q (body id) (body' id)) :
    Holds R Q (.inFrame label body .done) (.inFrame label body' .done)

namespace Tandem

variable {T : Tandem} {α β : Type} {R : Region} {P Q : Region → α → Prop} {x x' : Eval α}

theorem mono (h : T.Holds R P x x') (hPQ : ∀ S a, P S a → Q S a) : T.Holds R Q x x' := by
  rw [← Eval.bind_pure x, ← Eval.bind_pure x']
  exact T.bind h fun S a _ ha => T.ret (hPQ S a ha)

theorem ofExcept {r : Except Fault α} (h : ∀ a, r = .ok a → Q R a) :
    T.Holds R Q (Eval.ofExcept r) (Eval.ofExcept r) := by
  cases r with
  | error f => exact T.fail
  | ok a => exact T.ret (h a rfl)

theorem check {r : Except Fault α} :
    T.Holds R (fun _ _ => True) (Eval.ofExcept r) (Eval.ofExcept r) :=
  T.ofExcept fun _ _ => trivial

theorem failWith {c : Cause} : T.Holds R Q (Eval.failWith c) (Eval.failWith c) := T.fail

theorem onlyIf {b : Bool} {x x' : Eval Unit} (h : b = true → T.Holds R (fun _ _ => True) x x') :
    T.Holds R (fun _ _ => True) (Eval.onlyIf b x) (Eval.onlyIf b x') := by
  cases b with
  | true => exact h rfl
  | false => exact T.ret trivial

theorem mapFault {f : Fault → Eval Fault} (hx : T.Holds R Q x x')
    (hf : ∀ S e, R ⊆ S → T.Holds S (fun _ _ => True) (f e) (f e)) :
    T.Holds R Q (x.mapFault f) (x'.mapFault f) := by
  refine T.bind (T.catchFault hx) fun S r le hr => ?_
  cases r with
  | ok a => exact T.ret hr
  | error e => exact T.bind (hf S e le) fun _ _ _ _ => T.fail

theorem handle {taker : Taker} {take : Signal → Eval α} (hx : T.Holds R Q x x')
    (htake : ∀ S s, R ⊆ S → s.Within S → T.Holds S Q (take s) (take s)) :
    T.Holds R Q (x.handle taker take) (x'.handle taker take) := by
  refine T.bind (T.catchSignal hx) fun S r le hr => ?_
  cases r with
  | ok a => exact T.ret hr
  | error s =>
    dsimp only
    split
    · exact T.bind (T.ask (.mark (.taken taker s)) trivial) fun S' _ le' _ =>
        htake S' s (le.trans le') (Value.Within.mono hr le')
    · exact T.signal hr

theorem withFrame {feed : FeedId} {label : Option String} {body body' : Frame → Eval α}
    (h : ∀ id, T.Holds R Q (body { id, feed }) (body' { id, feed })) :
    T.Holds R Q (withFrame feed label body) (withFrame feed label body') :=
  T.inFrame h

/-! ### What evaluations ask for -/

variable {scope : ScopeId} {feed : FeedId} {name : String} {v : Value}

theorem command {c : Command β} (h : c.Within R) :
    T.Holds R (fun _ _ => True) (Eval.command c) (Eval.command c) :=
  T.mono (T.ask c h) fun _ _ _ => trivial

theorem note {e : Event} : T.Holds R (fun _ _ => True) (Eval.note e) (Eval.note e) :=
  T.command trivial

theorem freshIdentity :
    T.Holds R (fun _ _ => True) Eval.freshIdentity Eval.freshIdentity :=
  T.command trivial

theorem newScope {parent : Option ScopeId} (h : ∀ p ∈ parent, .scope p ∈ R) :
    T.Holds R (fun S s => .scope s ∈ S) (Eval.newScope parent) (Eval.newScope parent) :=
  T.ask (.newScope parent) h

theorem lookup (h : .scope scope ∈ R) :
    T.Holds R Value.MaybeWithin (Eval.lookup scope name) (Eval.lookup scope name) :=
  T.ask (.lookup scope name) h

theorem define (h : .scope scope ∈ R) (hv : v.Within R) :
    T.Holds R (fun _ _ => True) (Eval.define scope name v) (Eval.define scope name v) :=
  T.command (c := .define scope name v) ⟨h, hv⟩

theorem assign (h : .scope scope ∈ R) (hv : v.Within R) :
    T.Holds R (fun _ _ => True) (Eval.assign scope name v) (Eval.assign scope name v) :=
  T.command (c := .assign scope name v) ⟨h, hv⟩

theorem newFeed {units : List Value} (h : .scope scope ∈ R) (hu : Value.AllWithin R units) :
    T.Holds R (fun S f => .feed f ∈ S) (Eval.newFeed units scope) (Eval.newFeed units scope) :=
  T.ask (.newFeed units scope) ⟨h, hu⟩

theorem scopeOf (h : .feed feed ∈ R) :
    T.Holds R (fun S s => .scope s ∈ S) (Eval.scopeOf feed) (Eval.scopeOf feed) :=
  T.ask (.scopeOf feed) h

theorem peek (h : .feed feed ∈ R) :
    T.Holds R Value.MaybeWithin (Eval.peek feed) (Eval.peek feed) :=
  T.ask (.peek feed) h

theorem atEnd (h : .feed feed ∈ R) :
    T.Holds R (fun _ _ => True) (Eval.atEnd feed) (Eval.atEnd feed) :=
  T.bind (T.peek h) fun _ _ _ _ => T.ret trivial

theorem atArgumentEnd (h : .feed feed ∈ R) :
    T.Holds R (fun _ _ => True) (Eval.atArgumentEnd feed) (Eval.atArgumentEnd feed) := by
  refine T.bind (T.peek h) fun _ unit? _ _ => ?_
  split <;> exact T.ret trivial

theorem advance : T.Holds R (fun _ _ => True) (Eval.advance feed) (Eval.advance feed) :=
  T.command trivial

theorem takeNoLookahead :
    T.Holds R (fun _ _ => True) (Eval.takeNoLookahead feed) (Eval.takeNoLookahead feed) :=
  T.bind (T.command trivial) fun _ _ _ _ => T.bind (T.command trivial) fun _ _ _ _ => T.ret trivial

theorem setNoLookahead :
    T.Holds R (fun _ _ => True) (Eval.setNoLookahead feed) (Eval.setNoLookahead feed) :=
  T.command trivial

theorem deferring : T.Holds R (fun _ _ => True) (Eval.deferring feed) (Eval.deferring feed) :=
  T.command trivial

theorem setDeferring {b : Bool} :
    T.Holds R (fun _ _ => True) (Eval.setDeferring feed b) (Eval.setDeferring feed b) :=
  T.command trivial

theorem resolveGet (h : .feed feed ∈ R) :
    T.Holds R Value.Within (Eval.resolveGet feed name) (Eval.resolveGet feed name) := by
  refine T.bind (T.scopeOf h) fun _ scope _ hs => T.bind (T.lookup hs) fun _ v? _ hv => ?_
  cases v? with
  | none => exact T.failWith
  | some v => exact T.ret (hv v rfl)

theorem resolve (h : .feed feed ∈ R) :
    T.Holds R Value.Within (Eval.resolve feed name) (Eval.resolve feed name) := by
  refine T.bind (T.resolveGet h) fun _ v _ hv => ?_
  split
  · exact T.failWith
  · exact T.ret hv

end Tandem

/-- How two evaluators run nested code, as far as a tandem sees it. -/
structure Tandem.Nested (T : Tandem) (ev ev' : Evaluator) : Prop where
  patience : ev'.patience = ev.patience
  runUnits {R : Region} {units : List Value} {scope : ScopeId} (hs : .scope scope ∈ R)
    (h : Value.AllWithin R units) :
    T.Holds R Value.MaybeWithin (ev.runUnits units scope) (ev'.runUnits units scope)
  evalExpression {R : Region} {feed : FeedId} {fulfilling : Bool} (h : .feed feed ∈ R) :
    T.Holds R Value.MaybeWithin (ev.evalExpression feed fulfilling)
      (ev'.evalExpression feed fulfilling)
  reduceUnits {R : Region} {units : List Value} {scope : ScopeId} (hs : .scope scope ∈ R)
    (h : Value.AllWithin R units) :
    T.Holds R Value.AllWithin (ev.reduceUnits units scope) (ev'.reduceUnits units scope)

end Homoicon
