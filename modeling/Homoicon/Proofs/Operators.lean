import Homoicon.Proofs.Fixity
import Homoicon.Proofs.Operands

/-!
# Operators

Each operator is a standard operation that is enfixed under a name of its own.  Its calls compute what
those of the operation compute; only the name in a fault is another one.
-/

namespace Homoicon

/-! ### What the name of a call changes -/

def Cause.calledBy (label : String) : Cause → Cause
  | .wrongType _ param kind => .wrongType label param kind
  | c => c

/-- The fault as a call by the name `label` comes to it. -/
def Fault.calledBy (label : String) (e : Fault) : Fault := { e with cause := e.cause.calledBy label }

namespace CallState

/-- Calls with the same slots for the same parameters. -/
structure Twin (c c' : CallState) : Prop where
  params : c'.action.params = c.action.params
  slots : c'.slots = c.slots

namespace Twin

variable {c c' : CallState}

theorem refl (c : CallState) : c.Twin c := ⟨rfl, rfl⟩

theorem slot (h : c.Twin c') (i : Nat) : c'.slot i = c.slot i := by
  rw [CallState.slot, CallState.slot, h.slots]

theorem mismatch (h : c.Twin c') (i : Nat) :
    c'.mismatch i = (c.mismatch i).calledBy c'.label := by
  rw [CallState.mismatch, CallState.mismatch, h.params, h.slot]
  rfl

theorem decimals (h : c.Twin c') : c'.decimals = c.decimals.mapError (Fault.calledBy c'.label) := by
  simp only [CallState.decimals, h.slot, h.mismatch]
  cases (c.slot 0).asDecimal? <;> cases (c.slot 1).asDecimal? <;> rfl

theorem ringResult (h : c.Twin c') (op : Arithmetic) :
    c'.ringResult op = (c.ringResult op).mapError (Fault.calledBy c'.label) := by
  simp only [CallState.ringResult, h.slot, h.decimals]
  split
  · split <;> rfl
  · cases c.decimals <;> rfl

theorem quotient (h : c.Twin c') : c'.quotient = c.quotient.mapError (Fault.calledBy c'.label) := by
  simp only [CallState.quotient, h.slot, h.decimals]
  cases c.decimals with
  | error e => rfl
  | ok xy =>
    show (if xy.2 == 0.0 then _ else _) = Except.mapError _ (if xy.2 == 0.0 then _ else _)
    split
    · rfl
    · split
      · split <;> rfl
      · rfl

theorem negated (h : c.Twin c') : c'.negated = c.negated.mapError (Fault.calledBy c'.label) := by
  simp only [CallState.negated, h.slot, h.mismatch]
  split
  · split <;> rfl
  · rfl
  · rfl

theorem ordering (h : c.Twin c') : c'.ordering = c.ordering.mapError (Fault.calledBy c'.label) := by
  have horderly : ∀ o, c'.orderly o = (c.orderly o).mapError (Fault.calledBy c'.label) := by
    intro o
    simp only [CallState.orderly, h.slot]
    cases o <;> rfl
  simp only [CallState.ordering, h.slot, h.mismatch, horderly]
  split <;> rfl

end Twin

end CallState

/-- How an operation computes its result from the slots of its call, if it does nothing else. -/
def Operation.result? : Operation → Option (CallState → Except Fault Value)
  | .arithmetic op => some op.run
  | .comparison op => some op.run
  | _ => none

namespace Operation

variable {op : Operation} {result : CallState → Except Fault Value} (h : op.result? = some result)

include h

theorem run_of_result? (ev : Evaluator) (c : Call) :
    op.run ev c = Eval.ofExcept (result c.state) >>= fun v => pure (.out v) := by
  cases op <;> cases h <;> rfl

/-- Of two calls with the same slots, one computes what the other does, but for the name in a fault. -/
theorem result_twin {c c' : CallState} (twin : c.Twin c') :
    result c' = (result c).mapError (Fault.calledBy c'.label) := by
  cases op with
  | arithmetic op =>
    cases h
    cases op with
    | divide => exact twin.quotient
    | negate => exact twin.negated
    | _ => exact twin.ringResult _
  | comparison op =>
    cases h
    cases op with
    | lesser orEqual | greater orEqual =>
      simp only [Comparison.run, twin.ordering]
      cases c.ordering <;> rfl
    | equal negated | not =>
      simp only [Comparison.run, twin.slot]
      rfl
  | _ => cases h

theorem runFilled_of_result? {ev : Evaluator} {frame : Frame} {c : CallState} {n : Native}
    (hn : c.action.dispatcher = .native n) (hop : n.operation = op) (fuel : Nat) (m : Machine) :
    (ev.runFilled frame (fuel + 1) c m).1 = .ofResult (result c) := by
  subst hop
  unfold Evaluator.runFilled Evaluator.runDispatcher
  rw [hn]
  simp only [Eval.bind_assoc, run_of_result? h]
  cases result c <;> rfl

end Operation

/-! ### Standard operators -/

/-- The operator stands for an operation that computes its result from two evaluated arguments, none
of which may be absent. -/
def Operator.isBinary (o : Operator) : Bool :=
  (Registry.standard.get? o.target).any fun n =>
    n.enfix.isNone && n.operation.result?.isSome && n.params?.any fun params =>
      params.length == 2 &&
        params.all fun p => p.role == .normal && p.owner.isNone && !p.types.endable

theorem Registry.standardOperators_isBinary :
    Registry.standardOperators.all Operator.isBinary = true := by
  decide +kernel

theorem Native.action_plain {n : Native} {signature : Identity} {a : Action} (henfix : n.enfix = none)
    (h : n.action signature = .ok a) :
    n.params? = some a.params ∧ a.dispatcher = .native n ∧ a.exemplar = none ∧ a.enfixed = false ∧
      a.Made := by
  unfold action at h
  split at h
  · cases h
  · rename_i items hitems
    cases hspec : Spec.read items with
    | error e =>
      rw [hspec] at h
      cases h
    | ok spec =>
      rw [hspec] at h
      simp only [henfix] at h
      cases h
      refine ⟨?_, rfl, rfl, rfl, .read hspec (.inl rfl) rfl rfl⟩
      simp [params?, hitems, hspec, Except.toOption]

theorem Action.takesTwo_pair {a : Action} {p q : Param} (hparams : a.params = [p, q])
    (hexemplar : a.exemplar = none) (hp : p.role = .normal ∧ p.owner = none ∧ p.types.endable = false)
    (hq : q.role = .normal ∧ q.owner = none) :
    a.TakesTwo { left := 0, leftParam := p, right := 1, rightParam := q } where
  preset := hexemplar
  left := by rw [hparams]; rfl
  right := by rw [hparams]; rfl
  before := Nat.zero_lt_one
  leftNormal := hp.1
  rightNormal := hq.1
  leftFree := hp.2.1
  rightFree := hq.2
  leftNeeded := hp.2.2
  only i r hr _ := by
    have hlt := (List.getElem?_eq_some_iff.1 hr).1
    simp only [hparams, List.length_cons, List.length_nil] at hlt
    show i = 0 ∨ i = 1
    omega

/-- What a call by the name `label` makes of a result: a fault gets the name and a unit. -/
def Outcome.called (label : String) (near : Value) (r : Except Fault Value) :
    Outcome (Option Value) :=
  .ofResult (r.mapError fun e => ((e.calledBy label).inCall label).nearUnit near.mold)

/-- The outcome of a run that applies a computing operation. -/
theorem Eval.AppliesOnce.outcome {run : Eval (Option Value)} {m : Machine} {inner : Evaluator}
    {a : Action} {label : String} {p q : Param} {x y : Value} {feed : FeedId} {last : Value}
    {n : Native} {result : CallState → Except Fault Value}
    (h : run.AppliesOnce m inner a label { left := 0, leftParam := p, right := 1, rightParam := q }
      x y feed last)
    (hparams : a.params = [p, q]) (hn : a.dispatcher = .native n)
    (hresult : n.operation.result? = some result) :
    ∃ c : CallState, c.slots = [x, y] ∧ c.action.params = [p, q] ∧
      (run m).1 = .called label last (result c) := by
  obtain ⟨frame, c, m₁, hc, -, hm₁, hembeds⟩ := h
  have hslots : c.slots = [x, y] := by
    have hlength : c.slots.length = 2 := by
      rw [hc.length, hparams]
      rfl
    obtain ⟨u, v, huv⟩ := List.length_eq_two.1 hlength
    have hleft := hc.left
    have hright := hc.right
    simp only [CallState.slot, huv] at hleft hright
    cases hleft
    cases hright
    exact huv
  refine ⟨c, hslots, by rw [hc.action, hparams], ?_⟩
  have hfuel : a.adaptations + 1 + inner.patience = a.adaptations + inner.patience + 1 := by omega
  have htwin := Operation.result_twin hresult (.refl c)
  rw [hc.label] at htwin
  have hrun : (inner.runFilled frame (a.adaptations + 1 + inner.patience) c m₁).1 =
      .ofResult ((result c).mapError (Fault.calledBy label)) := by
    rw [hfuel, ← htwin]
    exact Operation.runFilled_of_result? hresult (by rw [hc.action, hn]) rfl _ _
  rw [hembeds.outcome, hrun]
  cases result c with
  | ok v => rfl
  | error e =>
    simp only [Except.mapError, Outcome.ofResult, Outcome.blamed, Feed.blame, hm₁.lookback,
      Outcome.called]

theorem Cause.calledBy_calledBy (label label' : String) (c : Cause) :
    (c.calledBy label').calledBy label = c.calledBy label := by
  cases c <;> rfl

theorem Outcome.called_mapError (label label' : String) (near : Value) (r : Except Fault Value) :
    called label near (r.mapError (Fault.calledBy label')) = called label near r := by
  cases r with
  | ok v => rfl
  | error e =>
    have hcause := Cause.calledBy_calledBy label label' e.cause
    simp only [called, Except.mapError, Fault.calledBy, hcause]

section

variable {m : Machine} {s : ScopeId} (ready : m.Ready) (room : m.depth + 3 ≤ m.config.maxDepth)
  (hscope : s < m.scopes.next) (x y : Value) (patience nesting : Nat)

include ready room hscope

theorem operator_agrees {o : Operator} {n : Native} {signature id id' : Identity} {a b : Action}
    (ho : o ∈ Registry.standardOperators) (hn : Registry.standard.get? o.target = some n)
    (ha : n.action signature = .ok a) (enfix : a.enfixWith .none = .ok b)
    (htarget : m.lookup s o.target = some (.action id a))
    (hsymbol : m.lookup s o.symbol = some (.action id' { b with label := some o.symbol })) :
    ∃ r near near',
      (Evaluator.runUnits ⟨stepWithin patience (nesting + 2), patience⟩
        [x.quotedIfNeeded, .word o.symbol, y.quotedIfNeeded] s m).1 = .called o.symbol near r ∧
      (Evaluator.runUnits ⟨stepWithin patience (nesting + 2), patience⟩
        [.word o.target, x.quotedIfNeeded, y.quotedIfNeeded] s m).1 = .called o.target near' r ∧
      ((∀ p, a.params.head? = some p → p.types.accepts x = true) → near = near') := by
  have hbinary := List.all_eq_true.1 Registry.standardOperators_isBinary o ho
  simp only [Operator.isBinary, hn, Option.any_some, Bool.and_eq_true, Option.isNone_iff_eq_none]
    at hbinary
  obtain ⟨⟨henfix, hresult⟩, hspec⟩ := hbinary
  obtain ⟨result, hresult⟩ := Option.isSome_iff_exists.1 hresult
  obtain ⟨hparams, hdispatcher, hexemplar, prefixed, made⟩ := Native.action_plain henfix ha
  obtain ⟨p, q, hpq, hp, hq⟩ : ∃ p q, a.params = [p, q] ∧
      (p.role = .normal ∧ p.owner = none ∧ p.types.endable = false) ∧
      (q.role = .normal ∧ q.owner = none) := by
    rw [hparams] at hspec
    simp only [Option.any_some, Bool.and_eq_true, beq_iff_eq] at hspec
    obtain ⟨hlength, hall⟩ := hspec
    obtain ⟨p, q, hpq⟩ := List.length_eq_two.1 hlength
    simp only [hpq, List.all_cons, List.all_nil, Bool.and_true, Bool.and_eq_true, beq_iff_eq,
      Option.isNone_iff_eq_none, Bool.not_eq_true'] at hall
    obtain ⟨⟨⟨hp, hpfree⟩, hpneeded⟩, ⟨hq, hqfree⟩, -⟩ := hall
    exact ⟨p, q, hpq, ⟨hp, hpfree, hpneeded⟩, hq, hqfree⟩
  obtain ⟨rfl, -⟩ := Action.enfixWith_eq_ok enfix
  have htakes := Action.takesTwo_pair hpq hexemplar hp hq
  let b : Action := { a with enfixed := true, deferral := .none, label := some o.symbol }
  have htakes' : b.TakesTwo _ := htakes.of_params rfl hexemplar
  have hfirst : b.firstArgument? = some 0 := htakes.firstArgument? made enfix
  have hbehind := Evaluator.runUnits_behind ready room hscope htakes htarget prefixed x y patience
    nesting
  have hbetween := Evaluator.runUnits_between ready room hscope htakes' hsymbol rfl hfirst x y patience
    nesting
  -- both spellings refuse the same operand or run the operation on the same slots
  cases hleft : p.types.accepts x with
  | false =>
    refine ⟨.error (.of (.wrongType "" p.name x.kind)), .word o.symbol, x.quotedIfNeeded,
      hbetween.left hleft, hbehind.left hleft, fun haccepts => ?_⟩
    have := haccepts p (by rw [hpq]; rfl)
    simp [hleft] at this
  | true =>
    cases hright : q.types.accepts y with
    | false =>
      exact ⟨.error (.of (.wrongType "" q.name y.kind)), y.quotedIfNeeded, y.quotedIfNeeded,
        hbetween.right hleft hright, hbehind.right hleft hright, fun _ => rfl⟩
    | true =>
      obtain ⟨c, hslots, hcparams, hc⟩ := (hbehind.applies hleft hright).outcome hpq hdispatcher hresult
      obtain ⟨c', hslots', hcparams', hc'⟩ :=
        (hbetween.applies hleft hright).outcome hpq hdispatcher hresult
      have htwin : c.Twin c' := ⟨hcparams'.trans hcparams.symm, hslots'.trans hslots.symm⟩
      rw [Operation.result_twin hresult htwin, Outcome.called_mapError] at hc'
      exact ⟨result c, y.quotedIfNeeded, y.quotedIfNeeded, hc', hc, fun _ => rfl⟩

/-- An action that takes two evaluated arguments does the same with its name before them and, enfixed,
with its name between them: a run of either code consumes it and applies the action once to both
operands, or it fails for the same operand.  An operator and the operation that it stands for then
come to the same result or to the same fault, but for the name of the call and, if the first operand
is refused, the unit that the fault is reported near. -/
theorem spellings_agree :
    let code (units : List Value) : Eval (Option Value) :=
      Evaluator.runUnits ⟨stepWithin patience (nesting + 2), patience⟩ units s
    let inner : Evaluator := ⟨stepWithin patience (nesting + 1), patience⟩
    let x' := x.quotedIfNeeded
    let y' := y.quotedIfNeeded
    (∀ (a b : Action) (t : Sides) (v w : String) (id id' : Identity), a.Made → a.TakesTwo t →
      a.enfixed = false → a.enfixWith .none = .ok b →
      m.lookup s v = some (.action id a) → m.lookup s w = some (.action id' b) →
        b.dispatcher = a.dispatcher ∧
        (code [x', .word w, y']).CallsOnce m inner b w t x y m.feeds.size (.word w) y' ∧
        (code [.word v, x', y']).CallsOnce m inner a v t x y m.feeds.size x' y') ∧
    ∀ o ∈ Registry.standardOperators, ∀ (n : Native) (signature id id' : Identity) (a b : Action),
      Registry.standard.get? o.target = some n → n.action signature = .ok a →
      a.enfixWith .none = .ok b → m.lookup s o.target = some (.action id a) →
      m.lookup s o.symbol = some (.action id' { b with label := some o.symbol }) →
        ∃ r near near', (code [x', .word o.symbol, y'] m).1 = .called o.symbol near r ∧
          (code [.word o.target, x', y'] m).1 = .called o.target near' r ∧
          ((∀ p, a.params.head? = some p → p.types.accepts x = true) → near = near') := by
  intro code inner x' y'
  constructor
  · intro a b t v w id id' made takes prefixed enfix hv hw
    have hfirst := takes.firstArgument? made enfix
    obtain ⟨rfl, -⟩ := Action.enfixWith_eq_ok enfix
    have takes' : { a with enfixed := true, deferral := .none }.TakesTwo t :=
      takes.of_params rfl takes.preset
    exact ⟨rfl,
      Evaluator.runUnits_between ready room hscope takes' hw rfl hfirst x y patience nesting,
      Evaluator.runUnits_behind ready room hscope takes hv prefixed x y patience nesting⟩
  · intro o ho n signature id id' a b hn ha enfix htarget hsymbol
    exact operator_agrees ready room hscope x y patience nesting ho hn ha enfix htarget hsymbol

end

/-! ### A machine with one operator -/

def additionNative : Native :=
  { name := "add", spec := Registry.numbersSpec, operation := .arithmetic .add }

def addition : Action := (additionNative.action 0).toOption.getD default

/-- A machine on which `add` is the addition, `plus` its enfixed form and `+` its operator. -/
def additionMachine (maxDepth : Nat) : Machine :=
  let enfixed := { addition with enfixed := true, deferral := .none }
  let scopes := ((({} : Scopes).make none).define 0 "add" (.action 1 addition)).define 0 "plus"
    (.action 2 enfixed)
  { Machine.new { maxDepth } with
    scopes := scopes.define 0 "+" (.action 3 { enfixed with label := some "+" }) }

theorem addition_action : additionNative.action 0 = .ok addition := by
  have hok : (additionNative.action 0).toOption.isSome = true := by decide +kernel
  unfold addition
  cases h : additionNative.action 0 with
  | ok a => rfl
  | error e =>
    rw [h] at hok
    cases hok

theorem addition_enfix : addition.enfixWith .none =
    .ok { addition with enfixed := true, deferral := .none } := by
  have hfirst : (addition.firstParam?.any fun p => p.role != .refinement) = true := by decide +kernel
  rw [Action.enfixWith, if_pos hfirst]

theorem addition_takesTwo : ∃ t : Sides, addition.TakesTwo t ∧
    t.leftParam.types.accepts (.integer 1) = true ∧
    t.rightParam.types.accepts (.integer 2) = true := by
  obtain ⟨p, q, hparams⟩ : ∃ p q, addition.params = [p, q] :=
    List.length_eq_two.1 (by decide +kernel)
  have hexemplar : addition.exemplar = none := (Native.action_plain rfl addition_action).2.2.1
  have hall : (addition.params.all fun p => p.role == .normal && p.owner.isNone &&
      !p.types.endable && p.types.acceptsKind .integer) = true := by decide +kernel
  simp only [hparams, List.all_cons, List.all_nil, Bool.and_true, Bool.and_eq_true, beq_iff_eq,
    Option.isNone_iff_eq_none, Bool.not_eq_true'] at hall
  obtain ⟨⟨⟨⟨hp, hpfree⟩, hpneeded⟩, hleft⟩, ⟨⟨hq, hqfree⟩, -⟩, hright⟩ := hall
  exact ⟨_, Action.takesTwo_pair hparams hexemplar ⟨hp, hpfree, hpneeded⟩ ⟨hq, hqfree⟩, hleft, hright⟩

theorem spellings_agree_addition :
    let m := additionMachine 3
    let code (units : List Value) : Eval (Option Value) :=
      Evaluator.runUnits ⟨stepWithin 0 2, 0⟩ units 0
    (m.Ready ∧ m.depth + 3 ≤ m.config.maxDepth ∧ 0 < m.scopes.next) ∧
    (∃ inner b t, (code [.integer 1, .word "plus", .integer 2]).AppliesOnce m inner b "plus" t
        (.integer 1) (.integer 2) 0 (.integer 2) ∧
      (code [.word "add", .integer 1, .integer 2]).AppliesOnce m inner addition "add" t
        (.integer 1) (.integer 2) 0 (.integer 2)) ∧
    ∃ r near near', (code [.integer 1, .word "+", .integer 2] m).1 = .called "+" near r ∧
      (code [.word "add", .integer 1, .integer 2] m).1 = .called "add" near' r := by
  intro m code
  have ready : m.Ready := by
    refine ⟨by decide, rfl, nofun, fun s p h => ?_⟩
    match s with
    | 0 => cases h
    | _ + 1 => cases h
  have room : m.depth + 3 ≤ m.config.maxDepth := by decide
  have hscope : 0 < m.scopes.next := Nat.zero_lt_one
  obtain ⟨hcalls, hoperators⟩ := spellings_agree ready room hscope (.integer 1) (.integer 2) 0 0
  refine ⟨⟨ready, room, hscope⟩, ?_, ?_⟩
  · obtain ⟨t, takes, hleft, hright⟩ := addition_takesTwo
    obtain ⟨-, -, -, prefixed, made⟩ := Native.action_plain rfl addition_action
    obtain ⟨-, hplus, hadd⟩ := hcalls addition _ t "add" "plus" 1 2 made takes prefixed addition_enfix
      rfl rfl
    exact ⟨_, _, t, hplus.applies hleft hright, hadd.applies hleft hright⟩
  · obtain ⟨r, near, near', hplus, hadd, -⟩ := hoperators ⟨"+", "add"⟩ (by decide) additionNative 0 1 3
      addition _ (by decide +kernel) addition_action addition_enfix rfl rfl
    exact ⟨r, near, near', hplus, hadd⟩

def Outcome.isDone {α : Type} : Outcome α → Bool
  | .done _ => true
  | _ => false

def Outcome.fault? {α : Type} : Outcome α → Option Fault
  | .failed e => some e
  | _ => none

/-- With the name first there is one more step and, for the first operand, one more frame.  Without
room for that frame a refused operand is not looked at, and a stop can be taken up at that step; a
refused first operand is reported near itself, and not near the operator. -/
theorem spellings_differ :
    let code (units : List Value) : Eval (Option Value) :=
      Evaluator.runUnits ⟨stepWithin 0 2, 0⟩ units 0
    let infixed := code [.text "x", .word "+", .integer 1]
    let prefixed := code [.word "add", .text "x", .integer 1]
    let stopped : Machine := { additionMachine 3 with interrupt := true, countdown := 3 }
    ((infixed (additionMachine 2)).1.fault? = some
        { cause := .wrongType "+" "value1" .text, near := some "+", label := some "+" } ∧
      (prefixed (additionMachine 2)).1.fault?.map (·.cause) = some (.stackOverflow 2)) ∧
    ((code [.integer 1, .word "+", .integer 2] stopped).1.isDone = true ∧
      (code [.word "add", .integer 1, .integer 2] stopped).1.isDone = false ∧
      (code [.word "add", .integer 1, .integer 2] stopped).1.fault? = none) ∧
    (infixed (additionMachine 3)).1.fault? = some
        { cause := .wrongType "+" "value1" .text, near := some "+", label := some "+" } ∧
      (prefixed (additionMachine 3)).1.fault? = some
        { cause := .wrongType "add" "value1" .text, near := some "\"x\"", label := some "add" } := by
  decide +kernel

end Homoicon
