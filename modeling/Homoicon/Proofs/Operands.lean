import Homoicon.Proofs.Installation
import Homoicon.Proofs.Redoing
import Homoicon.Proofs.Requests
import Homoicon.Registry.Standard

/-!
# What operations want of their operands

An operation tells its operands apart by their kinds, and has a fault for a slot of a kind that it
does not know what to do with.  The fault names the call, and nothing else that an operation does
depends on the name of its call: an operation that does the same under every name never comes to
that fault.
-/

namespace Homoicon

/-- What an operation does is the same under every name of its call. -/
def Operation.NeverMismatches (op : Operation) (ev : Evaluator) (c : Call) : Prop :=
  ∀ label, op.run ev { c with state := { c.state with label } } = op.run ev c

/-- The fault for a slot is another one under every other name. -/
theorem CallState.mismatch_relabelled {c : CallState} {i : Nat} {label : String} :
    ({ c with label } : CallState).mismatch i = c.mismatch i ↔ label = c.label := by
  constructor
  · intro h
    have hcause := congrArg Fault.cause h
    simp only [mismatch, Fault.of, Cause.wrongType.injEq] at hcause
    exact hcause.1
  · rintro rfl
    rfl

/-- The slots that an operation looks into, with the kinds that it knows.  Those of an order also
have to fit each other. -/
def Operation.wants : Operation → List (Nat × List Kind)
  | .arithmetic .negate => [(0, [.integer, .decimal])]
  | .arithmetic _ => [(0, [.integer, .decimal]), (1, [.integer, .decimal])]
  | .comparison (.lesser _) | .comparison (.greater _) =>
    [(0, [.integer, .decimal, .text]), (1, [.integer, .decimal, .text])]
  | .comparison _ => []
  | .control .either => [(1, [.block]), (2, [.block])]
  | .control .loop => [(0, [.integer]), (1, [.block])]
  | .control .whileTrue => [(0, [.block]), (1, [.block])]
  | .control .catchThrow | .control .trap => [(0, [.block])]
  | .control .fail => [(0, [.text, .error])]
  | .control .ifTrue | .control .thenBranch | .control .elseBranch | .control .alsoBranch =>
    [(1, [.block])]
  | .control _ => []
  | .access .doSource => [(0, [.block, .group, .text])]
  | .access .reduce => [(0, [.block])]
  | .access .get => [(0, [.word, .getWord, .path])]
  | .access .set => [(0, [.word, .setWord])]
  | .access .assignDefault => [(0, [.setWord, .setPath]), (1, [.block])]
  | .access _ => []
  | .generator .func => [(0, [.block]), (1, [.block])]
  | .generator .specialize | .generator .adapt => [(0, [.action]), (1, [.block])]
  | .generator .enfix => [(0, [.action])]
  | .generator .take => [(0, [.varargs])]
  | .generator .isTail => [(0, [.varargs, .block])]
  | .generator .varargs => [(0, [.block])]
  | .host _ => []

def CallState.Meets (c : CallState) (op : Operation) : Prop :=
  ∀ w ∈ op.wants, (c.slot w.1).kind ∈ w.2

/-! ### Slots of known kinds -/

section Slots

variable {frame : Frame} {c : CallState} {i : Nat}

theorem Value.asDecimal?_of_number {v : Value} (h : v.kind ∈ [Kind.integer, Kind.decimal]) :
    ∃ x, v.asDecimal? = some x := by
  cases v with
  | integer n => exact ⟨_, rfl⟩
  | decimal x => exact ⟨x, rfl⟩
  | _ => simp [Value.kind] at h

namespace Call

variable (label : String)

theorem block_relabelled (h : (c.slot i).kind = .block) :
    block { frame, state := { c with label } } i = block { frame, state := c } i := by
  have hslot : ({ c with label } : CallState).slot i = c.slot i := rfl
  unfold block slot
  simp only [hslot]
  cases hv : c.slot i with
  | block items => rfl
  | _ => simp [hv, Value.kind] at h

theorem integer_relabelled (h : (c.slot i).kind = .integer) :
    integer { frame, state := { c with label } } i = integer { frame, state := c } i := by
  have hslot : ({ c with label } : CallState).slot i = c.slot i := rfl
  unfold integer slot
  simp only [hslot]
  cases hv : c.slot i with
  | integer n => rfl
  | _ => simp [hv, Value.kind] at h

theorem action_relabelled (h : (c.slot i).kind = .action) :
    action { frame, state := { c with label } } i = action { frame, state := c } i := by
  have hslot : ({ c with label } : CallState).slot i = c.slot i := rfl
  unfold action slot
  simp only [hslot]
  cases hv : c.slot i with
  | action id a => rfl
  | _ => simp [hv, Value.kind] at h

end Call

end Slots

/-! ### Each family of operations -/

section Families

variable {ev : Evaluator} {frame : Frame} {c : CallState} (label : String)

theorem CallState.decimals_relabelled (hfirst : (c.slot 0).kind ∈ [Kind.integer, Kind.decimal])
    (hsecond : (c.slot 1).kind ∈ [Kind.integer, Kind.decimal]) :
    ({ c with label } : CallState).decimals = c.decimals := by
  obtain ⟨x, hx⟩ := Value.asDecimal?_of_number hfirst
  obtain ⟨y, hy⟩ := Value.asDecimal?_of_number hsecond
  have hslots : ∀ i, ({ c with label } : CallState).slot i = c.slot i := fun _ => rfl
  simp only [decimals, hslots, hx, hy]

theorem Arithmetic.run_relabelled {op : Arithmetic} (h : c.Meets (.arithmetic op)) :
    op.run { c with label } = op.run c := by
  have hslots : ∀ i, ({ c with label } : CallState).slot i = c.slot i := fun _ => rfl
  cases op with
  | negate =>
    have hnumber := h _ List.mem_cons_self
    simp only [run, CallState.negated, hslots]
    cases hv : c.slot 0 with
    | integer n => rfl
    | decimal x => rfl
    | _ => simp [hv, Value.kind] at hnumber
  | divide =>
    have hdecimals := CallState.decimals_relabelled label (h _ List.mem_cons_self)
      (h _ (List.mem_cons_of_mem _ List.mem_cons_self))
    simp only [run, CallState.quotient, hslots, hdecimals]
  | _ =>
    have hdecimals := CallState.decimals_relabelled label (h _ List.mem_cons_self)
      (h _ (List.mem_cons_of_mem _ List.mem_cons_self))
    simp only [run, CallState.ringResult, hslots, hdecimals]

/-- Whether one of two operands is a text and the other is not. -/
def CallState.Mixes (c : CallState) : Prop :=
  ¬((c.slot 0).kind = .text ↔ (c.slot 1).kind = .text)

theorem CallState.ordering_relabelled (h : ¬c.Mixes) :
    ({ c with label } : CallState).ordering = c.ordering := by
  have hslots : ∀ i, ({ c with label } : CallState).slot i = c.slot i := fun _ => rfl
  unfold Mixes at h
  simp only [ordering, orderly, hslots]
  cases hfirst : c.slot 0 <;> cases hsecond : c.slot 1 <;>
    first | rfl | simp [hfirst, hsecond, Value.kind] at h

/-- Ordering a text against something else comes to the fault of the slot that holds the other. -/
theorem CallState.ordering_of_mixes (h : c.Mixes) : ∃ i, c.ordering = .error (c.mismatch i) := by
  unfold Mixes at h
  cases hfirst : c.slot 0 with
  | text s =>
    cases hsecond : c.slot 1 with
    | text t => simp [hfirst, hsecond, Value.kind] at h
    | _ =>
      simp only [ordering, hfirst, hsecond]
      exact ⟨1, rfl⟩
  | _ =>
    cases hsecond : c.slot 1 with
    | text t =>
      simp only [ordering, hfirst, hsecond]
      exact ⟨0, rfl⟩
    | _ => simp [hfirst, hsecond, Value.kind] at h

def Comparison.orders : Comparison → Bool
  | .lesser _ | .greater _ => true
  | _ => false

theorem Comparison.run_relabelled {op : Comparison} (h : op.orders = true → ¬c.Mixes) :
    op.run { c with label } = op.run c := by
  cases op with
  | lesser orEqual => simp only [run, CallState.ordering_relabelled label (h rfl)]
  | greater orEqual => simp only [run, CallState.ordering_relabelled label (h rfl)]
  | _ => rfl

theorem Comparison.run_of_mixes {op : Comparison} (ho : op.orders = true) (h : c.Mixes) :
    ∃ i, op.run c = .error (c.mismatch i) := by
  obtain ⟨i, hi⟩ := CallState.ordering_of_mixes h
  refine ⟨i, ?_⟩
  cases op with
  | lesser orEqual =>
    simp only [run, hi]
    rfl
  | greater orEqual =>
    simp only [run, hi]
    rfl
  | _ => cases ho

theorem Control.run_relabelled {op : Control} (h : c.Meets (.control op)) :
    op.run ev { frame, state := { c with label } } = op.run ev { frame, state := c } := by
  have hblock : ∀ {i}, (i, [Kind.block]) ∈ (Operation.control op).wants →
      Call.block { frame, state := { c with label } } i = Call.block { frame, state := c } i :=
    fun hi => Call.block_relabelled label (List.mem_singleton.1 (h _ hi))
  cases op with
  | ifTrue | thenBranch | elseBranch | alsoBranch =>
    simp only [run, hblock (i := 1) (by decide)]
    rfl
  | either =>
    have hbranch : ∀ b : Bool, Call.block { frame, state := { c with label } } (if b then 1 else 2) =
        Call.block { frame, state := c } (if b then 1 else 2) := by
      intro b
      cases b with
      | true => exact hblock (by decide)
      | false => exact hblock (by decide)
    exact congrArg (· >>= _) (hbranch (c.slot 0).isTruthy)
  | loop =>
    have hcount : Call.integer { frame, state := { c with label } } 0 =
        Call.integer { frame, state := c } 0 :=
      Call.integer_relabelled label (List.mem_singleton.1 (h _ List.mem_cons_self))
    simp only [run, hcount, hblock (i := 1) (by decide)]
    refine bind_congr fun count => bind_congr fun body => ?_
    rw [Evaluator.loopTimes_ignores c { c with label }]
  | whileTrue =>
    simp only [run, hblock (i := 0) (by decide), hblock (i := 1) (by decide)]
    refine bind_congr fun condition => bind_congr fun body => ?_
    rw [Evaluator.loopWhile_ignores c { c with label }]
  | catchThrow | trap =>
    simp only [run, hblock (i := 0) (by decide)]
    rfl
  | fail =>
    have hreason := h _ List.mem_cons_self
    have hslot : CallState.slot { c with label } 0 = c.slot 0 := rfl
    simp only [run, Call.slot, hslot]
    cases hv : c.slot 0 with
    | text s => rfl
    | error id f => rfl
    | _ => simp [hv, Value.kind] at hreason
  | _ => rfl

/-- A path that must not call comes to a value. -/
theorem Evaluator.evalPath_bind {α : Type} {feed : FeedId} {items : List Value}
    {f g : PathOutcome → Eval α} (h : ∀ v, f (.value v) = g (.value v)) :
    ev.evalPath feed items false >>= f = ev.evalPath feed items false >>= g := by
  cases items with
  | nil => rfl
  | cons head segments =>
    unfold evalPath
    simp only [Eval.bind_assoc]
    refine bind_congr fun (v, label) => ?_
    have hpicked : ∀ v : Value,
        (ev.pickAlong feed (head :: segments) v segments >>= fun r => pure (PathOutcome.value r)) >>= f =
        (ev.pickAlong feed (head :: segments) v segments >>= fun r => pure (PathOutcome.value r)) >>= g := by
      intro v
      simp only [Eval.bind_assoc]
      exact bind_congr fun r => h r
    cases v with
    | action id a =>
      dsimp only
      split
      · rename_i hno
        cases hno
      · split
        · exact h _
        · rfl
    | _ => exact hpicked _

theorem Access.run_relabelled {op : Access} (h : c.Meets (.access op)) :
    op.run ev { frame, state := { c with label } } = op.run ev { frame, state := c } := by
  have hslots : ∀ i, ({ c with label } : CallState).slot i = c.slot i := fun _ => rfl
  cases op with
  | doSource =>
    have hsource := h _ List.mem_cons_self
    simp only [run, doUnits, Call.slot, hslots]
    cases hv : c.slot 0 with
    | block items | group items | text s => rfl
    | _ => simp [hv, Value.kind] at hsource
  | reduce =>
    have hblock : Call.block { frame, state := { c with label } } 0 =
        Call.block { frame, state := c } 0 :=
      Call.block_relabelled label (List.mem_singleton.1 (h _ List.mem_cons_self))
    simp only [run, hblock]
    rfl
  | get =>
    have hsource := h _ List.mem_cons_self
    simp only [run, Call.slot, hslots]
    cases hv : c.slot 0 with
    | word name | getWord name => rfl
    | path items => exact Evaluator.evalPath_bind fun v => rfl
    | _ => simp [hv, Value.kind] at hsource
  | set =>
    have htarget := h _ List.mem_cons_self
    simp only [run, Call.slot, hslots]
    cases hv : c.slot 0 with
    | word name | setWord name => rfl
    | _ => simp [hv, Value.kind] at htarget
  | assignDefault =>
    have htarget := h _ List.mem_cons_self
    have hblock : Call.block { frame, state := { c with label } } 1 =
        Call.block { frame, state := c } 1 :=
      Call.block_relabelled label
        (List.mem_singleton.1 (h _ (List.mem_cons_of_mem _ List.mem_cons_self)))
    simp only [run, hblock, Evaluator.defaultTarget, Call.slot, hslots]
    refine bind_congr fun branch => ?_
    cases hv : c.slot 0 with
    | setWord name => rfl
    | setPath items =>
      simp only [Eval.bind_assoc]
      exact Evaluator.evalPath_bind fun v => rfl
    | _ => simp [hv, Value.kind] at htarget
  | _ => rfl

theorem Generator.run_relabelled {op : Generator} (h : c.Meets (.generator op)) :
    op.run ev { frame, state := { c with label } } = op.run ev { frame, state := c } := by
  have hslots : ∀ i, ({ c with label } : CallState).slot i = c.slot i := fun _ => rfl
  have hblock : ∀ {i}, (i, [Kind.block]) ∈ (Operation.generator op).wants →
      Call.block { frame, state := { c with label } } i = Call.block { frame, state := c } i :=
    fun hi => Call.block_relabelled label (List.mem_singleton.1 (h _ hi))
  have haction : ∀ {i}, (i, [Kind.action]) ∈ (Operation.generator op).wants →
      Call.action { frame, state := { c with label } } i = Call.action { frame, state := c } i :=
    fun hi => Call.action_relabelled label (List.mem_singleton.1 (h _ hi))
  cases op with
  | func =>
    simp only [run, hblock (i := 0) (by decide), hblock (i := 1) (by decide)]
    rfl
  | specialize | adapt =>
    simp only [run, haction (i := 0) (by decide), hblock (i := 1) (by decide)]
    rfl
  | enfix =>
    simp only [run, haction (i := 0) (by decide)]
    rfl
  | take | isTail =>
    have hsource := h _ List.mem_cons_self
    simp only [run, Call.slot, hslots]
    cases hv : c.slot 0 <;> first | rfl | simp [hv, Value.kind] at hsource
  | varargs =>
    simp only [run, hblock (i := 0) (by decide)]
    rfl

end Families

/-- An operation that knows the kinds of its operands comes to no fault for them, unless it is to order
a text against something else. -/
theorem Operation.neverMismatches {op : Operation} {c : Call} (ev : Evaluator)
    (hbuiltin : ∀ h, op ≠ .host h) (hmeets : c.state.Meets op)
    (horder : ∀ o, op = .comparison o → o.orders = true → ¬c.state.Mixes) :
    op.NeverMismatches ev c := by
  intro label
  cases op with
  | arithmetic op => simp only [run, Arithmetic.run_relabelled label hmeets]
  | comparison op => simp only [run, Comparison.run_relabelled label (horder op rfl)]
  | control op => exact op.run_relabelled label hmeets
  | access op => exact op.run_relabelled label hmeets
  | generator op => exact op.run_relabelled label hmeets
  | host op => exact absurd rfl (hbuiltin op)

/-! ### What specs demand -/

def Native.params? (n : Native) : Option (List Param) :=
  (Source.scan n.spec).toOption.bind fun items => (Spec.read items).toOption.map (·.params)

theorem Native.params?_wellOwned {n : Native} {params : List Param} (h : n.params? = some params) :
    WellOwned params := by
  obtain ⟨items, -, h⟩ := Option.bind_eq_some_iff.1 h
  obtain ⟨spec, hspec, rfl⟩ := Option.map_eq_some_iff.1 h
  exact Spec.read_wellOwned (except_toOption_eq_some.1 hspec)

/-- Whether a parameter takes one value, evaluated or as it stands. -/
def Param.isPlain (p : Param) : Bool := p.role == .normal || p.role == .hardQuote

/-- A parameter takes a value of one of the given kinds, which is never absent. -/
def Param.demands (p : Param) (kinds : List Kind) : Bool :=
  p.isPlain && !p.mayBeAbsent && Kind.all.all fun k => !p.types.acceptsKind k || kinds.contains k

/-- The spec of an operation demands what the operation wants, and names an argument first. -/
def Native.suits (n : Native) : Bool :=
  n.operation.wants.isEmpty || n.params?.any fun params =>
    params.head?.any Param.isPlain && n.operation.wants.all fun w => params[w.1]?.any (·.demands w.2)

/-- Whether a standard operation suits its spec and can be installed, in one look at the spec. -/
def Native.isFit (n : Native) : Bool := n.suits && n.isInstallable Registry.standard.operators

namespace Registry

theorem arithmetic_fit : arithmeticNatives.all Native.isFit = true := by decide +kernel

theorem comparison_fit : comparisonNatives.all Native.isFit = true := by decide +kernel

theorem control_fit : controlNatives.all Native.isFit = true := by decide +kernel

theorem access_fit : accessNatives.all Native.isFit = true := by decide +kernel

theorem generator_fit : generatorNatives.all Native.isFit = true := by decide +kernel

theorem standard_fit {n : Native} (hn : n ∈ standard.natives) :
    n.suits = true ∧ n.isInstallable standard.operators = true := by
  have hall : standard.natives.all Native.isFit = true := by
    simp only [standard, List.all_append, arithmetic_fit, comparison_fit, control_fit, access_fit,
      generator_fit, Bool.and_self]
  exact Bool.and_eq_true_iff.1 (List.all_eq_true.1 hall n hn)

theorem standard_installable : standard.natives.all (·.isInstallable standard.operators) = true :=
  List.all_eq_true.2 fun _ hn => (standard_fit hn).2

end Registry

theorem Param.demands_kind {p : Param} {kinds : List Kind} {v : Value} (h : p.demands kinds = true)
    (hv : p.Holds v ∨ v = .null ∧ p.types.skippable = true) : v.kind ∈ kinds := by
  unfold demands mayBeAbsent at h
  simp only [Bool.and_eq_true, Bool.not_eq_true', Bool.or_eq_false_iff] at h
  obtain ⟨⟨hplain, ⟨howner, hend⟩, hskip⟩, hkinds⟩ := h
  have haccepts : p.types.accepts v = true := by
    rcases hv with hv | ⟨-, hv⟩
    · unfold Holds at hv
      simp only [isPlain, Bool.or_eq_true, beq_iff_eq] at hplain
      rcases hplain with hrole | hrole
      all_goals
        rw [hrole] at hv
        simpa [howner, hend, hskip] using hv
    · rw [hskip] at hv
      cases hv
  have hkind := List.all_eq_true.1 hkinds v.kind (Kind.mem_all v.kind)
  rw [show p.types.acceptsKind v.kind = true from haccepts] at hkind
  simpa using hkind

theorem Param.not_refinement_of_isPlain {p : Param} (h : p.isPlain = true) : p.role ≠ .refinement := by
  intro hr
  simp [isPlain, hr] at h

namespace Native

variable {n : Native} {params : List Param} (hn : n ∈ Registry.standard.natives)
  (hparams : n.params? = some params)

include hn hparams

theorem suits_params (hwants : n.operation.wants ≠ []) : params.head?.any Param.isPlain = true ∧
    ∀ w ∈ n.operation.wants, params[w.1]?.any (·.demands w.2) = true := by
  have hsuits := (Registry.standard_fit hn).1
  have hempty : n.operation.wants.isEmpty = false := by simpa using hwants
  simpa [suits, hempty, hparams] using hsuits

/-- A call of a standard operation whose slots hold what their parameters allow has operands that
the operation knows. -/
theorem meets_of_holds {c : CallState}
    (h : ∀ i p, params[i]? = some p → p.role ≠ .refinement →
      p.Holds (c.slot i) ∨ c.slot i = .null ∧ p.types.skippable = true) : c.Meets n.operation := by
  intro w hw
  obtain ⟨-, hdemands⟩ := suits_params hn hparams (List.ne_nil_of_mem hw)
  obtain ⟨p, hp, hdemand⟩ := (Option.any_eq_true _ _).1 (hdemands w hw)
  have hplain : p.isPlain = true := by
    simp only [Param.demands, Bool.and_eq_true] at hdemand
    exact hdemand.1.1
  exact Param.demands_kind hdemand (h w.1 p hp (Param.not_refinement_of_isPlain hplain))

theorem first_not_refinement (hwants : n.operation.wants ≠ []) {a : Action} (ha : a.params = params)
    {i : Nat} {p : Param} (hi : a.firstArgument? = some i) (hp : params[i]? = some p) :
    p.role ≠ .refinement := by
  obtain ⟨hhead, -⟩ := suits_params hn hparams hwants
  obtain ⟨q, hq, hplain⟩ := (Option.any_eq_true _ _).1 hhead
  obtain ⟨rest, rfl⟩ : ∃ rest, params = q :: rest := by
    cases params with
    | nil => cases hq
    | cons r rest =>
      cases hq
      exact ⟨rest, rfl⟩
  have hfirst : a.firstArgument? = some 0 := by
    have hrole : q.role ≠ .localWord ∧ q.role ≠ .returns := by
      constructor <;> intro hr <;> simp [Param.isPlain, hr] at hplain
    simp [Action.firstArgument?, ha, List.findIdx?_cons, hrole]
  rw [hfirst] at hi
  cases hi
  cases hp
  exact Param.not_refinement_of_isPlain hplain

end Native

end Homoicon
