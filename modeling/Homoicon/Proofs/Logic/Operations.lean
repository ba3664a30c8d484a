import Homoicon.Evaluate.Invoke
import Homoicon.Proofs.Logic.Fulfil
import Homoicon.Proofs.Scanned

/-!
# Built-in operations in a logic
-/

namespace Homoicon

variable {F : Facts}

def Bounce.Good (F : Facts) : Bounce → Prop
  | .out v => v.Good F
  | .invisible => True
  | .redo a _ => a.Good F

def Bounce.Final (F : Facts) : Bounce → Prop
  | .out v => v.Good F
  | .invisible => True
  | .redo _ _ => False

def LoopFlow.Good (F : Facts) : LoopFlow → Prop
  | .next v => Value.GoodMaybe F v
  | .stop => True

theorem CallState.mismatch_fault {c : CallState} {i : Nat} : F.fault (c.mismatch i) :=
  F.fault_of (by simp)

/-! ### Arithmetic and comparison -/

section Numbers

variable {c : CallState}

theorem Facts.Caught.bind {α β : Type} {P : α → Prop} {Q : β → Prop} {x : Except Fault α}
    {f : α → Except Fault β} (hx : F.Caught P x) (hf : ∀ a, P a → F.Caught Q (f a)) :
    F.Caught Q (x >>= f) := by
  cases x with
  | error e => exact hx
  | ok a => exact hf a hx

theorem decimals_caught : F.Caught (fun _ => True) c.decimals := by
  unfold CallState.decimals
  split
  · trivial
  · exact CallState.mismatch_fault
  · exact CallState.mismatch_fault

theorem Arithmetic.run_caught (op : Arithmetic) : F.Caught (Value.Good F) (op.run c) := by
  have ring : ∀ op, F.Caught (Value.Good F) (c.ringResult op) := by
    intro op
    unfold CallState.ringResult
    split
    · split
      · trivial
      · exact F.fault_of (by simp)
    · exact decimals_caught.bind fun _ _ => trivial
  cases op with
  | add => exact ring .add
  | subtract => exact ring .subtract
  | multiply => exact ring .multiply
  | divide =>
    refine decimals_caught.bind fun (x, y) _ => ?_
    dsimp only
    split
    · exact F.fault_of (by simp)
    · split
      · split <;> trivial
      · trivial
  | negate =>
    simp only [Arithmetic.run, CallState.negated]
    split
    · split
      · trivial
      · exact F.fault_of (by simp)
    · trivial
    · exact CallState.mismatch_fault

theorem orderly_caught (o : Option Ordering) : F.Caught (fun _ => True) (c.orderly o) := by
  cases o with
  | none => exact F.fault_of (by simp)
  | some _ => trivial

theorem ordering_caught : F.Caught (fun _ => True) c.ordering := by
  unfold CallState.ordering
  split
  · trivial
  · exact orderly_caught _
  · exact orderly_caught _
  · exact orderly_caught _
  · trivial
  · exact CallState.mismatch_fault
  · exact CallState.mismatch_fault
  · exact orderly_caught none

theorem Comparison.run_caught (op : Comparison) : F.Caught (Value.Good F) (op.run c) := by
  cases op with
  | equal negated => trivial
  | lesser orEqual => exact ordering_caught.bind fun _ _ => trivial
  | greater orEqual => exact ordering_caught.bind fun _ _ => trivial
  | not => trivial

end Numbers

namespace Logic

variable {L : Logic F} {ev : Evaluator} {cur : Place} {c : Call}

theorem mismatch {α : Type} {Q : α → Prop} {i : Nat} : L.Holds cur Q (c.mismatch i : Eval α) :=
  L.fail CallState.mismatch_fault

theorem integer {i : Nat} : L.Holds cur (fun _ => True) (c.integer i) := by
  unfold Call.integer
  split
  · exact L.ret trivial
  · exact L.mismatch

theorem slotBlock {i : Nat} (h : c.state.Good F) :
    L.Holds cur (fun items => Value.GoodAll F items ∧ c.state.slot i = .block items)
      (c.block i) := by
  have hs := h.slot i
  unfold Call.block Call.slot
  split
  · rename_i hb
    rw [hb] at hs
    exact L.ret ⟨hs, hb⟩
  · exact L.mismatch

theorem block {i : Nat} (h : c.state.Good F) : L.Holds cur (Value.GoodAll F) (c.block i) :=
  L.mono (L.slotBlock h) fun _ hb => hb.1

theorem action {i : Nat} (h : c.state.Good F) : L.Holds cur (Action.Good F) (c.action i) := by
  have hs := h.slot i
  unfold Call.action Call.slot
  split
  · rename_i hb
    rw [hb] at hs
    exact L.ret hs
  · exact L.mismatch

theorem scope : L.Holds cur (fun _ => True) c.scope := L.scopeOf

section Nested

variable (N : L.Nested ev)
include N

theorem runBlock {items : List Value} (h : Value.GoodAll F items) :
    L.Holds cur (Value.GoodMaybe F) (ev.runBlock c items) :=
  L.bind L.scope fun _ _ => N.runUnits h

theorem runBranch {items : List Value} (h : Value.GoodAll F items) :
    L.Holds cur (Bounce.Final F) (ev.runBranch c items) :=
  L.bind (L.runBlock N h) fun _ hv => L.ret (hv.getD trivial)

/-! ### Control -/

theorem runLoopBody {body : List Value} (stands : (Taker.loop body).Stands cur)
    (h : Value.GoodAll F body) : L.Holds cur (LoopFlow.Good F) (ev.runLoopBody c body) := by
  refine L.handle stands (L.bind (L.runBlock N h) fun _ hv => L.ret hv) fun s _ _ => L.ret ?_
  unfold Evaluator.loopFlow
  split <;> trivial

theorem loopTimes {body : List Value} {last : Option Value} {n : Nat}
    (stands : (Taker.loop body).Stands cur) (h : Value.GoodAll F body)
    (hl : Value.GoodMaybe F last) : L.Holds cur (Value.Good F) (ev.loopTimes c body last n) := by
  induction n generalizing last with
  | zero => exact L.ret (hl.getD trivial)
  | succ n ih =>
    refine L.bind (L.runLoopBody N stands h) fun flow hf => ?_
    cases flow with
    | next v => exact ih (hf.or hl)
    | stop => exact L.ret trivial

theorem loopWhile {condition body : List Value} {last : Option Value} {n : Nat}
    (stands : (Taker.loop body).Stands cur) (patient : L.patient)
    (hc : Value.GoodAll F condition) (h : Value.GoodAll F body) (hl : Value.GoodMaybe F last) :
    L.Holds cur (Value.Good F) (ev.loopWhile c condition body last n) := by
  induction n generalizing last with
  | zero => exact L.exhaust patient
  | succ n ih =>
    refine L.bind (L.runBlock N hc) fun test _ => ?_
    split
    · refine L.bind (L.runLoopBody N stands h) fun flow hf => ?_
      cases flow with
      | next v => exact ih (hf.or hl)
      | stop => exact L.ret trivial
    · exact L.ret (hl.getD trivial)

theorem control {op : Control} {n : Native} (hcur : cur.call = some (n, c.state))
    (hn : n.operation = .control op) (h : c.state.Good F)
    (patient : op = .whileTrue → L.patient) : L.Holds cur (Bounce.Final F) (op.run ev c) := by
  cases op with
  | ifTrue =>
    refine L.bind (L.block h) fun branch hb => ?_
    split
    · exact L.runBranch N hb
    · exact L.ret trivial
  | either => exact L.bind (L.block h) fun branch hb => L.runBranch N hb
  | loop =>
    refine L.bind L.integer fun count _ => L.bind (L.slotBlock h) fun body ⟨hb, hslot⟩ => ?_
    exact L.bind (L.loopTimes N ⟨n, _, hcur, .inl hn, hslot⟩ hb trivial) fun _ hv => L.ret hv
  | whileTrue =>
    refine L.bind (L.block h) fun condition hc => L.bind (L.slotBlock h) fun body ⟨hb, hslot⟩ => ?_
    have stands : (Taker.loop body).Stands cur := ⟨n, _, hcur, .inr hn, hslot⟩
    exact L.bind (L.loopWhile N stands (patient rfl) hc hb trivial) fun _ hv => L.ret hv
  | breakLoop => exact L.signal trivial
  | continueLoop => exact L.signal trivial
  | catchThrow =>
    refine L.bind (L.block h) fun block hb => ?_
    dsimp only
    refine L.bind (P := Value.Good F) (L.handle ⟨n, _, hcur, hn, rfl⟩ ?_ ?_) fun _ hv => L.ret hv
    · exact L.bind (L.runBlock N hb) fun _ hv => L.ret (hv.getD trivial)
    · exact fun s hs _ => L.bind L.note fun _ _ => L.ret hs
  | throwValue => exact L.signal (h.slot 0)
  | trap =>
    refine L.bind (L.block h) fun block hb => L.bind (L.catchFault (L.runBlock N hb)) fun r hr => ?_
    cases r with
    | ok _ => exact L.ret trivial
    | error f => exact L.bind L.note fun _ _ => L.bind L.freshIdentity fun _ _ => L.ret hr
  | fail =>
    have hs := h.slot 0
    simp only [Control.run, Call.slot]
    split
    · exact L.failWith (by simp)
    · rename_i f hf
      rw [hf] at hs
      exact L.fail hs
    · exact L.mismatch
  | halt => exact L.signal trivial
  | thenBranch =>
    refine L.bind (L.block h) fun branch hb => ?_
    split
    · exact L.ret trivial
    · exact L.runBranch N hb
  | elseBranch =>
    refine L.bind (L.block h) fun branch hb => ?_
    split
    · exact L.runBranch N hb
    · exact L.ret (h.slot 0)
  | alsoBranch =>
    refine L.bind (L.block h) fun branch hb => ?_
    split
    · exact L.ret trivial
    · exact L.bind (L.runBlock N hb) fun _ _ => L.ret (h.slot 0)
  | accept => exact L.signal (h.slot 0)
  | reject => exact L.signal trivial

/-! ### Code and variables -/

theorem printedLine (h : c.state.Good F) :
    L.Holds cur (fun _ => True) (ev.printedLine c) := by
  have hs := h.slot 0
  unfold Evaluator.printedLine Call.slot
  split
  · exact L.ret trivial
  · rename_i hb
    rw [hb] at hs
    exact L.bind L.scope fun _ _ => L.bind (N.reduceUnits hs) fun _ _ => L.ret trivial
  · exact L.ret trivial

theorem defaultTarget (h : c.state.Good F) :
    L.Holds cur (Value.GoodMaybe F) (ev.defaultTarget c) := by
  have hs := h.slot 0
  unfold Evaluator.defaultTarget Call.slot
  split
  · exact L.bind L.scope fun _ _ => L.lookup
  · rename_i hb
    rw [hb] at hs
    refine L.bind (L.evalPath N hs) fun r hr => ?_
    cases r with
    | value v => exact L.ret hr
    | call p => exact L.mismatch
  · exact L.mismatch

end Nested

theorem doUnits (h : c.state.Good F) : L.Holds cur (Value.GoodAll F) (doUnits c) := by
  have hs := h.slot 0
  unfold Homoicon.doUnits Call.slot
  split
  · rename_i hb
    rw [hb] at hs
    exact L.ret hs
  · rename_i hb
    rw [hb] at hs
    exact L.ret hs
  · split
    · exact L.ret (Source.scan_good ‹_›)
    · exact L.failWith (by simp)
  · exact L.mismatch

theorem valueOf {name : String} : L.Holds cur (Value.Good F) (c.valueOf name) := by
  refine L.bind L.scope fun _ _ => L.bind L.lookup fun v? hv => ?_
  cases v? with
  | some v => exact L.ret hv
  | none => exact L.failWith (by simp)

theorem access {op : Access} (N : L.Nested ev) (h : c.state.Good F) :
    L.Holds cur (Bounce.Final F) (op.run ev c) := by
  have hs := h.slot 0
  cases op with
  | doSource => exact L.bind (L.doUnits h) fun _ hu => L.runBranch N hu
  | reduce =>
    refine L.bind (L.block h) fun items hi => L.bind L.scope fun _ _ => ?_
    exact L.bind (N.reduceUnits hi) fun _ hv => L.ret hv
  | quote => exact L.ret hs
  | the => exact L.ret hs
  | comment => exact L.ret trivial
  | elide => exact L.ret trivial
  | get =>
    simp only [Access.run, Call.slot]
    split
    · exact L.bind L.valueOf fun _ hv => L.ret hv
    · exact L.bind L.valueOf fun _ hv => L.ret hv
    · rename_i hb
      rw [hb] at hs
      refine L.bind (L.evalPath N hs) fun r hr => ?_
      cases r with
      | value v => exact L.ret hr
      | call p => exact L.mismatch
    · exact L.mismatch
  | set =>
    simp only [Access.run]
    split
    · refine L.bind L.scope fun _ _ => L.bind (L.assign (h.slot 1)) fun _ _ => ?_
      exact L.ret (h.slot 1)
    · exact L.mismatch
  | typeOf =>
    refine L.ret ?_
    split <;> trivial
  | isNull => exact L.ret trivial
  | print =>
    refine L.bind (L.printedLine N h) fun line? _ => ?_
    cases line? with
    | none => exact L.ret trivial
    | some line => exact L.bind L.printLine fun _ _ => L.ret trivial
  | assignDefault =>
    refine L.bind (L.block h) fun branch hb => L.bind (L.defaultTarget N h) fun current hc => ?_
    split
    · refine L.bind (L.runBlock N hb) fun result hr => ?_
      have hv := hr.getD (v := .null) trivial
      dsimp only [Call.slot] at *
      split
      · exact L.bind L.scope fun _ _ => L.bind (L.assign hv) fun _ _ => L.ret hv
      · rename_i hp
        rw [hp] at hs
        exact L.bind (L.assignPath N hs hv) fun _ _ => L.ret hv
      · exact L.mismatch
    · exact L.ret (hc.getD trivial)

/-! ### Making actions -/

theorem newAction {a : Action} (h : a.Good F) : L.Holds cur (Bounce.Final F) (newAction a) :=
  L.bind L.freshIdentity fun _ _ => L.ret h

theorem presetOf {a : Action} {scope : ScopeId} {p : Param} {index : Nat} :
    L.Holds cur (Value.GoodMaybe F) (presetOf a scope p index) := by
  unfold Homoicon.presetOf
  split
  · refine L.bind L.lookup fun v? hv => L.ofExcept ?_
    unfold presetSlot
    split
    · trivial
    · trivial
    · split
      · trivial
      · split
        · exact hv
        · exact F.fault_of (by simp)
  · exact L.ret trivial

theorem presetSlots {a : Action} {scope : ScopeId} {params : List (Param × Nat)} :
    L.Holds cur (Value.GoodSlots F) (presetSlots a scope params) := by
  induction params with
  | nil => exact L.ret trivial
  | cons entry rest ih =>
    refine L.bind L.presetOf fun slot hs => L.bind ih fun slots hss => L.ret ?_
    exact ⟨hs, hss⟩

theorem definePresets {a : Action} {scope : ScopeId} {params : List (Param × Nat)}
    (h : a.Good F) : L.Holds cur (fun _ => True) (definePresets a scope params) := by
  induction params with
  | nil => exact L.ret trivial
  | cons entry rest ih =>
    refine L.bind (L.onlyIf (fun _ => L.define ?_) fun _ => trivial) fun _ _ => ih
    exact (h.preset _).getD trivial

end Logic

theorem Action.Good.specialized {a : Action} {slots : List (Option Value)} (h : a.Good F)
    (hs : Value.GoodSlots F slots) : (a.specialized slots).Good F := by
  obtain ⟨hd, -, hcalled⟩ := Action.good_iff.1 h
  refine Action.good_iff.2 ⟨hd, Value.goodSlots_iff.2 fun slot hmem => ?_, hcalled⟩
  obtain ⟨⟨slot, i⟩, hslot, rfl⟩ := List.mem_map.1 hmem
  exact (Value.goodSlots_iff.1 hs slot (List.fst_mem_of_mem_zipIdx hslot)).or (h.preset i)

theorem Action.Good.enfixWith_caught {a : Action} {deferral : Deferral} (h : a.Good F) :
    F.Caught (Action.Good F) (a.enfixWith deferral) := by
  unfold Action.enfixWith
  split
  · exact h.congr rfl rfl rfl
  · exact F.fault_of (by simp)

namespace Spec

theorem fault_caught {α : Type} {Q : α → Prop} {detail : String} :
    F.Caught Q (fault detail : Except Fault α) :=
  F.fault_of (by simp)

theorem foldlM_caught {α β : Type} {f : β → α → Except Fault β}
    (hf : ∀ b a, F.Caught (fun _ => True) (f b a)) {items : List α} {b : β} :
    F.Caught (fun _ => True) (items.foldlM f b) := by
  induction items generalizing b with
  | nil => trivial
  | cons a rest ih =>
    rw [List.foldlM_cons]
    exact (hf b a).bind fun _ _ => ih

theorem readTypes_caught {items : List Value} : F.Caught (fun _ => True) (readTypes items) := by
  refine Facts.Caught.bind (foldlM_caught fun e v => ?_) fun _ _ => trivial
  unfold TypeEntries.add
  split
  · split
    · trivial
    · exact fault_caught
  · trivial
  · trivial
  · trivial
  · trivial
  · exact fault_caught
  · exact fault_caught

theorem typedParam_caught {p : Param} {items : List Value} :
    F.Caught (fun _ => True) (typedParam p items) := by
  unfold typedParam
  split
  · exact fault_caught
  · refine readTypes_caught.bind fun (types, variadic) _ => ?_
    dsimp only
    split
    · split
      · trivial
      · exact fault_caught
    · trivial

namespace Reading

variable {r : Reading}

theorem declare_caught {name : String} {role : Role} :
    F.Caught (fun _ => True) (r.declare name role) := by
  unfold declare
  split
  · exact fault_caught
  · trivial

theorem readItem_caught {first : Bool} {item : Value} :
    F.Caught (fun _ => True) (r.readItem first item) := by
  unfold readItem
  split
  · split <;> trivial
  · trivial
  · trivial
  · unfold declareTypes
    split
    · exact fault_caught
    · exact typedParam_caught.bind fun _ _ => trivial
  · exact declare_caught
  · exact declare_caught
  · exact fault_caught
  · exact declare_caught
  · exact declare_caught
  · exact fault_caught
  · unfold declareRefinement
    dsimp only
    split
    · exact fault_caught
    · trivial
  · exact fault_caught

theorem next_caught {item : Value} : F.Caught (fun _ => True) (r.next item) := by
  unfold next
  dsimp only
  split
  · exact readTypes_caught.bind fun _ _ => trivial
  · exact readItem_caught

end Reading

theorem read_caught {items : List Value} : F.Caught (fun _ => True) (read items) := by
  refine Facts.Caught.bind (foldlM_caught fun _ _ => Reading.next_caught) fun r _ => ?_
  split
  · exact F.fault_of (by simp)
  · trivial

end Spec

namespace Logic

variable {L : Logic F} {ev : Evaluator} {cur : Place} {c : Call}

theorem generator {op : Generator} (N : L.Nested ev) (h : c.state.Good F) :
    L.Holds cur (Bounce.Final F) (op.run ev c) := by
  cases op with
  | func =>
    refine L.bind (L.block h) fun items _ => L.bind (L.block h) fun body hb => ?_
    refine L.bind (L.ofExcept Spec.read_caught) fun spec _ => ?_
    refine L.bind (P := fun _ => True) (L.ofExcept ?_) fun params _ => ?_
    · unfold functionParams
      split
      · exact F.fault_of (by simp)
      · trivial
    · refine L.bind L.scope fun _ _ => L.bind L.freshIdentity fun _ _ => L.bind L.note fun _ _ => ?_
      exact L.newAction ⟨hb, trivial, by rintro _ ⟨⟩⟩
  | specialize =>
    refine L.bind (L.action h) fun a ha => L.bind (L.block h) fun definition hd => ?_
    refine L.bind L.scope fun _ _ => L.bind L.newScope fun _ _ => ?_
    refine L.bind (L.definePresets ha) fun _ _ => L.bind (N.runUnits hd) fun _ _ => ?_
    exact L.bind L.presetSlots fun slots hs => L.newAction (ha.specialized hs)
  | adapt =>
    refine L.bind (L.action h) fun a ha => L.bind (L.block h) fun prelude hp => ?_
    refine L.bind L.scope fun _ _ => L.newAction (Action.good_iff.2 ⟨⟨hp, ha⟩, ?_, by rintro _ ⟨⟩⟩)
    exact (Action.good_iff.1 ha).2.1
  | enfix =>
    refine L.bind (L.action h) fun a ha => ?_
    refine L.bind (P := fun _ => True) (L.ofExcept ?_) fun deferral _ => ?_
    · unfold requestedDeferral
      split
      · trivial
      · trivial
      · trivial
      · exact F.fault_of (by simp)
    · exact L.bind (L.ofExcept ha.enfixWith_caught) fun b hb => L.newAction hb
  | take =>
    simp only [Generator.run]
    split
    · exact L.bind (L.takeFrom N) fun _ hv => L.ret hv
    · exact L.mismatch
  | isTail =>
    simp only [Generator.run]
    split
    · exact L.bind L.atArgumentEnd fun _ _ => L.ret trivial
    · exact L.ret trivial
    · exact L.mismatch
  | varargs =>
    refine L.bind (L.block h) fun items hi => L.bind L.scope fun _ _ => ?_
    refine L.bind (P := Value.Good F) ?_ fun _ hv => L.ret hv
    exact L.bind (L.newFeed hi) fun _ _ => L.bind L.freshIdentity fun _ _ => L.ret trivial

/-! ### Operations of a host -/

theorem hostOperation {op : HostOperation} (h : c.state.Good F)
    (called : ∀ n params, F.called n params) : L.Holds cur (Bounce.Good F) (op.run c) := by
  cases op with
  | echo => exact L.ret h.slots
  | double => exact L.bind L.integer fun _ _ => L.ret trivial
  | joinText =>
    simp only [HostOperation.run]
    split
    · exact L.ret trivial
    · exact L.mismatch
  | frameHere => exact L.bind (L.reifyCall h) fun _ _ => L.ret trivial
  | varargsFrame =>
    simp only [HostOperation.run]
    split
    · split <;> exact L.ret trivial
    · exact L.mismatch
  | callInfo =>
    refine L.bind (P := Value.Good F) ?_ fun _ hv => L.ret hv
    refine L.bind (L.command trivial trivial) fun _ _ => L.bind (L.command trivial trivial) fun _ _ => ?_
    refine L.bind (L.command trivial trivial) fun labels _ => L.ret ?_
    refine Value.GoodAll.append ⟨trivial, trivial, trivial, trivial, trivial, trivial⟩ ?_
    refine Value.goodAll_iff.2 fun v hv => ?_
    obtain ⟨_, -, rfl⟩ := List.mem_map.1 hv
    trivial
  | requestHalt => exact L.bind (L.command trivial trivial) fun _ _ => L.ret trivial
  | rawCall =>
    simp only [HostOperation.run]
    split
    · refine L.bind L.scope fun _ _ => L.bind L.lookup fun v? hv => ?_
      split
      · refine L.ret (Action.good_iff.2 ⟨(Action.good_iff.1 hv).1, ?_, fun n _ => called n _⟩)
        exact (Action.good_iff.1 h.action).2.1
      · exact L.mismatch
    · exact L.mismatch
  | redoInto => exact L.bind (L.action h) fun _ ha => L.ret ha
  | accepts =>
    refine L.bind (L.action h) fun a _ => L.bind L.integer fun index _ => ?_
    split
    · exact L.ret trivial
    · exact L.ret trivial

/-- A built-in operation ends its call, unless it is an operation of a host; only `while` may lose
patience. -/
theorem runOperation {n : Native} (N : L.Nested ev) (hcur : cur.call = some (n, c.state))
    (hn : F.native n) (h : c.state.Good F)
    (patient : n.operation = .control .whileTrue → L.patient) :
    L.Holds cur (fun b => b.Final F ∨ b.Good F ∧ ∃ host, n.operation = .host host)
      (n.operation.run ev c) := by
  cases hop : n.operation with
  | arithmetic op =>
    exact L.bind (L.ofExcept (Arithmetic.run_caught op)) fun _ hv => L.ret (.inl hv)
  | comparison op =>
    exact L.bind (L.ofExcept (Comparison.run_caught op)) fun _ hv => L.ret (.inl hv)
  | control op =>
    have hv := L.control N hcur hop h fun e => patient (by rw [hop, e])
    exact L.mono hv fun _ hb => .inl hb
  | access op => exact L.mono (L.access N h) fun _ hb => .inl hb
  | generator op => exact L.mono (L.generator N h) fun _ hb => .inl hb
  | host op =>
    exact L.mono (L.hostOperation h (F.host n op hn hop)) fun _ hb => .inr ⟨hb, op, rfl⟩

end Logic

end Homoicon
