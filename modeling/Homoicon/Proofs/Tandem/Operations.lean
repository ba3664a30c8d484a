import Homoicon.Proofs.Formed
import Homoicon.Proofs.Tandem.Fulfil

/-!
# Built-in operations in tandem
-/

namespace Homoicon

variable {R S : Region}

def Bounce.Within (R : Region) : Bounce → Prop
  | .out v => v.Within R
  | .invisible => True
  | .redo a _ => a.Within R

def LoopFlow.Within (R : Region) : LoopFlow → Prop
  | .next v => Value.MaybeWithin R v
  | .stop => True

structure Call.Within (R : Region) (c : Call) : Prop where
  feed : .feed c.frame.feed ∈ R
  state : c.state.Within R

theorem Call.Within.mono {c : Call} (h : c.Within R) (le : R ⊆ S) : c.Within S :=
  ⟨le h.feed, h.state.mono le⟩

/-! ### Values that refer to nothing -/

namespace Source

mutual

theorem handles_of_formed {v : Value} (h : v.Formed) : v.handles = [] := by
  cases v with
  | block items | group items => exact @handles_of_formedAll items h
  | path items => exact @handles_of_formedSegments items h.2.2.2
  | setPath items | getPath items => exact @handles_of_formedSegments items h.2.2
  | sym payload => exact handles_of_formed (v := payload) h.1
  | quoted payload => exact handles_of_formed (v := payload) h
  | action id a | varargs id v | frame f => exact h.elim
  | _ => rfl

theorem handles_of_formedAll {items : List Value} (h : Value.FormedAll items) :
    Value.handlesAll items = [] := by
  cases items with
  | nil => rfl
  | cons v rest => rw [Value.handlesAll, handles_of_formed h.1, handles_of_formedAll h.2]; rfl

theorem handles_of_formedSegments {items : List Value} (h : Value.FormedSegments items) :
    Value.handlesAll items = [] := by
  cases items with
  | nil => rfl
  | cons v rest =>
    rw [Value.handlesAll, handles_of_formedSegment h.1, handles_of_formedSegments h.2]
    rfl

theorem handles_of_formedSegment {v : Value} (h : v.FormedSegment) : v.handles = [] := by
  cases v with
  | group items => exact @handles_of_formedAll items h
  | word name => rfl
  | integer n => rfl
  | decimal x => rfl
  | _ => exact h.elim

end

theorem scan_within {s : String} {items : List Value} (h : scan s = .ok items) :
    Value.AllWithin R items := by
  refine Value.allWithin_iff.1 fun h' hmem => ?_
  rw [handles_of_formedAll (scan_formed h)] at hmem
  cases hmem

end Source

theorem Arithmetic.run_handles {op : Arithmetic} {c : CallState} {v : Value}
    (h : op.run c = .ok v) : v.handles = [] := by
  have ring : ∀ op, c.ringResult op = .ok v → v.handles = [] := by
    intro op h
    unfold CallState.ringResult at h
    split at h
    · split at h <;> cases h
      rfl
    · obtain ⟨_, -, h⟩ := except_bind_eq_ok.1 h
      cases h
      rfl
  cases op with
  | add => exact ring .add h
  | subtract => exact ring .subtract h
  | multiply => exact ring .multiply h
  | divide =>
    obtain ⟨⟨x, y⟩, -, h⟩ := except_bind_eq_ok.1 h
    dsimp only at h
    split at h
    · cases h
    · repeat' split at h
      all_goals
        cases h
        rfl
  | negate =>
    simp only [Arithmetic.run, CallState.negated] at h
    split at h
    · split at h <;> cases h
      rfl
    · cases h
      rfl
    · cases h

theorem Comparison.run_handles {op : Comparison} {c : CallState} {v : Value}
    (h : op.run c = .ok v) : v.handles = [] := by
  cases op with
  | equal negated =>
    cases h
    rfl
  | lesser orEqual | greater orEqual =>
    obtain ⟨_, -, h⟩ := except_bind_eq_ok.1 h
    cases h
    rfl
  | not =>
    cases h
    rfl

namespace Tandem

variable {T : Tandem} {ev ev' : Evaluator} {c : Call}

theorem mismatch {α : Type} {Q : Region → α → Prop} {i : Nat} :
    T.Holds R Q (c.mismatch i) (c.mismatch i) := T.fail

theorem integer {i : Nat} : T.Holds R (fun _ _ => True) (c.integer i) (c.integer i) := by
  unfold Call.integer
  split
  · exact T.ret trivial
  · exact T.mismatch

theorem block {i : Nat} (h : c.Within R) : T.Holds R Value.AllWithin (c.block i) (c.block i) := by
  have hs := h.state.slot i
  unfold Call.block Call.slot
  split
  · rename_i hb
    rw [hb] at hs
    exact T.ret (Value.within_block.1 hs)
  · exact T.mismatch

theorem action {i : Nat} (h : c.Within R) : T.Holds R Action.Within (c.action i) (c.action i) := by
  have hs := h.state.slot i
  unfold Call.action Call.slot
  split
  · rename_i hb
    rw [hb] at hs
    exact T.ret (Value.within_action.1 hs)
  · exact T.mismatch

theorem scope (h : c.Within R) : T.Holds R (fun S s => .scope s ∈ S) c.scope c.scope :=
  T.scopeOf h.feed

section Nested

variable (N : T.Nested ev ev')
include N

theorem runBlock {items : List Value} (h : c.Within R) (hi : Value.AllWithin R items) :
    T.Holds R Value.MaybeWithin (ev.runBlock c items) (ev'.runBlock c items) :=
  T.bind (T.scope h) fun _ _ le hs => N.runUnits hs (hi.mono le)

theorem runBranch {items : List Value} (h : c.Within R) (hi : Value.AllWithin R items) :
    T.Holds R Bounce.Within (ev.runBranch c items) (ev'.runBranch c items) :=
  T.bind (T.runBlock N h hi) fun _ _ _ hv => T.ret (hv.getD Value.within_void)

/-! ### Control -/

theorem runLoopBody {body : List Value} (h : c.Within R) (hb : Value.AllWithin R body) :
    T.Holds R LoopFlow.Within (ev.runLoopBody c body) (ev'.runLoopBody c body) := by
  refine T.handle (T.bind (T.runBlock N h hb) fun _ _ _ hv => T.ret hv) fun _ s _ _ => T.ret ?_
  unfold Evaluator.loopFlow
  split
  · trivial
  · exact .none

theorem loopTimes {body : List Value} {last : Option Value} {n : Nat} (h : c.Within R)
    (hb : Value.AllWithin R body) (hl : Value.MaybeWithin R last) :
    T.Holds R Value.Within (ev.loopTimes c body last n) (ev'.loopTimes c body last n) := by
  induction n generalizing last R with
  | zero => exact T.ret (hl.getD Value.within_null)
  | succ n ih =>
    refine T.bind (T.runLoopBody N h hb) fun _ flow le hf => ?_
    cases flow with
    | next v => exact ih (h.mono le) (hb.mono le) (hf.or (hl.mono le))
    | stop => exact T.ret Value.within_null

theorem loopWhile {condition body : List Value} {last : Option Value} {n : Nat} (h : c.Within R)
    (hc : Value.AllWithin R condition) (hb : Value.AllWithin R body)
    (hl : Value.MaybeWithin R last) :
    T.Holds R Value.Within (ev.loopWhile c condition body last n)
      (ev'.loopWhile c condition body last n) := by
  induction n generalizing last R with
  | zero => exact T.exhaust
  | succ n ih =>
    refine T.bind (T.runBlock N h hc) fun _ test le₁ _ => ?_
    split
    · refine T.bind (T.runLoopBody N (h.mono le₁) (hb.mono le₁)) fun _ flow le₂ hf => ?_
      have le := le₁.trans le₂
      cases flow with
      | next v => exact ih (h.mono le) (hc.mono le) (hb.mono le) (hf.or (hl.mono le))
      | stop => exact T.ret Value.within_null
    · exact T.ret ((hl.mono le₁).getD Value.within_null)

theorem control {op : Control} (h : c.Within R) :
    T.Holds R Bounce.Within (op.run ev c) (op.run ev' c) := by
  cases op with
  | ifTrue =>
    refine T.bind (T.block h) fun _ branch le hb => ?_
    split
    · exact T.runBranch N (h.mono le) hb
    · exact T.ret Value.within_null
  | either => exact T.bind (T.block h) fun _ branch le hb => T.runBranch N (h.mono le) hb
  | loop =>
    refine T.bind T.integer fun _ count le₁ _ => ?_
    refine T.bind (T.block (h.mono le₁)) fun _ body le₂ hb => ?_
    refine T.bind (T.loopTimes N (h.mono (le₁.trans le₂)) hb .none) fun _ _ _ hv => T.ret hv
  | whileTrue =>
    refine T.bind (T.block h) fun _ condition le₁ hc => ?_
    refine T.bind (T.block (h.mono le₁)) fun _ body le₂ hb => ?_
    rw [N.patience]
    refine T.bind (T.loopWhile N (h.mono (le₁.trans le₂)) (hc.mono le₂) hb .none) fun _ _ _ hv => ?_
    exact T.ret hv
  | breakLoop => exact T.signal Value.within_null
  | continueLoop => exact T.signal Value.within_null
  | catchThrow =>
    refine T.bind (T.block h) fun _ block le hb => ?_
    dsimp only
    refine T.bind (P := Value.Within) (T.handle ?_ fun _ s _ hs => ?_) fun _ _ _ hv => T.ret hv
    · exact T.bind (T.runBlock N (h.mono le) hb) fun _ _ _ hv =>
        T.ret (hv.getD Value.within_null)
    · exact T.bind T.note fun _ _ le' _ => T.ret (Value.Within.mono hs le')
  | throwValue => exact T.signal (h.state.slot 0)
  | trap =>
    refine T.bind (T.block h) fun _ block le hb => ?_
    refine T.bind (T.catchFault (T.runBlock N (h.mono le) hb)) fun _ r _ _ => ?_
    cases r with
    | ok _ => exact T.ret Value.within_null
    | error f =>
      exact T.bind T.note fun _ _ _ _ => T.bind T.freshIdentity fun _ _ _ _ => T.ret (.of_nil rfl)
  | fail =>
    simp only [Control.run]
    split
    · exact T.failWith
    · exact T.fail
    · exact T.mismatch
  | halt => exact T.signal Value.within_null
  | thenBranch =>
    refine T.bind (T.block h) fun _ branch le hb => ?_
    split
    · exact T.ret Value.within_null
    · exact T.runBranch N (h.mono le) hb
  | elseBranch =>
    refine T.bind (T.block h) fun _ branch le hb => ?_
    split
    · exact T.runBranch N (h.mono le) hb
    · exact T.ret ((h.mono le).state.slot 0)
  | alsoBranch =>
    refine T.bind (T.block h) fun _ branch le hb => ?_
    split
    · exact T.ret Value.within_null
    · exact T.bind (T.runBlock N (h.mono le) hb) fun _ _ le' _ =>
        T.ret ((h.mono (le.trans le')).state.slot 0)
  | accept => exact T.signal (h.state.slot 0)
  | reject => exact T.signal Value.within_null

/-! ### Code and variables -/

theorem printedLine (h : c.Within R) :
    T.Holds R (fun _ _ => True) (ev.printedLine c) (ev'.printedLine c) := by
  have hs := h.state.slot 0
  unfold Evaluator.printedLine Call.slot
  split
  · exact T.ret trivial
  · rename_i hb
    rw [hb] at hs
    refine T.bind (T.scope h) fun _ _ le hscope => ?_
    refine T.bind (N.reduceUnits hscope ((Value.within_block.1 hs).mono le)) fun _ _ _ _ => ?_
    exact T.ret trivial
  · exact T.ret trivial

theorem defaultTarget (h : c.Within R) :
    T.Holds R Value.MaybeWithin (ev.defaultTarget c) (ev'.defaultTarget c) := by
  have hs := h.state.slot 0
  unfold Evaluator.defaultTarget Call.slot
  split
  · exact T.bind (T.scope h) fun _ _ _ hscope => T.lookup hscope
  · rename_i hb
    rw [hb] at hs
    refine T.bind (T.evalPath N h.feed (Value.within_setPath.1 hs)) fun _ r _ hr => ?_
    cases r with
    | value v => exact T.ret (.some hr)
    | call p => exact T.mismatch
  · exact T.mismatch

end Nested

theorem doUnits (h : c.Within R) : T.Holds R Value.AllWithin (doUnits c) (doUnits c) := by
  have hs := h.state.slot 0
  unfold Homoicon.doUnits Call.slot
  split
  · rename_i hb
    rw [hb] at hs
    exact T.ret (Value.within_block.1 hs)
  · rename_i hb
    rw [hb] at hs
    exact T.ret (Value.within_group.1 hs)
  · split
    · exact T.ret (Source.scan_within ‹_›)
    · exact T.failWith
  · exact T.mismatch

theorem valueOf {name : String} (h : c.Within R) :
    T.Holds R Value.Within (c.valueOf name) (c.valueOf name) := by
  refine T.bind (T.scope h) fun _ _ _ hs => T.bind (T.lookup hs) fun _ v? _ hv => ?_
  cases v? with
  | some v => exact T.ret (hv v rfl)
  | none => exact T.failWith

theorem access {op : Access} (N : T.Nested ev ev') (h : c.Within R) :
    T.Holds R Bounce.Within (op.run ev c) (op.run ev' c) := by
  have hs := h.state.slot 0
  cases op with
  | doSource => exact T.bind (T.doUnits h) fun _ _ le hu => T.runBranch N (h.mono le) hu
  | reduce =>
    refine T.bind (T.block h) fun _ items le₁ hi => T.bind (T.scope (h.mono le₁)) fun _ _ le₂ hscope => ?_
    refine T.bind (N.reduceUnits hscope (hi.mono le₂)) fun _ _ _ hv => T.ret ?_
    exact Value.within_block.2 hv
  | quote => exact T.ret (Value.within_quoted.2 hs)
  | the => exact T.ret hs
  | comment => exact T.ret trivial
  | elide => exact T.ret trivial
  | get =>
    simp only [Access.run, Call.slot]
    split
    · exact T.bind (T.valueOf h) fun _ _ _ hv => T.ret hv
    · exact T.bind (T.valueOf h) fun _ _ _ hv => T.ret hv
    · rename_i hb
      rw [hb] at hs
      refine T.bind (T.evalPath N h.feed (Value.within_path.1 hs)) fun _ r _ hr => ?_
      cases r with
      | value v => exact T.ret hr
      | call p => exact T.mismatch
    · exact T.mismatch
  | set =>
    simp only [Access.run]
    split
    · refine T.bind (T.scope h) fun _ _ le₁ hscope => ?_
      refine T.bind (T.assign hscope ((h.mono le₁).state.slot 1)) fun _ _ le₂ _ => T.ret ?_
      exact (h.mono (le₁.trans le₂)).state.slot 1
    · exact T.mismatch
  | typeOf =>
    refine T.ret ?_
    split <;> exact .of_nil rfl
  | isNull => exact T.ret Value.within_logic
  | print =>
    refine T.bind (T.printedLine N h) fun _ line? _ _ => ?_
    cases line? with
    | none => exact T.ret Value.within_null
    | some line => exact T.bind (T.command trivial) fun _ _ _ _ => T.ret Value.within_void
  | assignDefault =>
    refine T.bind (T.block h) fun _ branch le₁ hb => ?_
    refine T.bind (T.defaultTarget N (h.mono le₁)) fun _ current le₂ hc => ?_
    split
    · refine T.bind (T.runBlock N (h.mono (le₁.trans le₂)) (hb.mono le₂)) fun _ result le₃ hr => ?_
      have hv := hr.getD (v := .null) Value.within_null
      have h' := h.mono (le₁.trans (le₂.trans le₃))
      have hs' := h'.state.slot 0
      dsimp only [Call.slot] at *
      split
      · refine T.bind (T.scope h') fun _ _ le₄ hscope => ?_
        refine T.bind (T.assign hscope (hv.mono le₄)) fun _ _ le₅ _ => T.ret ?_
        exact hv.mono (le₄.trans le₅)
      · rename_i hp
        rw [hp] at hs'
        refine T.bind (T.assignPath N h'.feed (Value.within_setPath.1 hs') hv) fun _ _ le₄ _ => ?_
        exact T.ret (hv.mono le₄)
      · exact T.mismatch
    · exact T.ret (hc.getD Value.within_null)

/-! ### Making actions -/

theorem newAction {a : Action} (h : a.Within R) :
    T.Holds R Bounce.Within (newAction a) (newAction a) :=
  T.bind T.freshIdentity fun _ _ le _ => T.ret (Value.within_action.2 (h.mono le))

theorem presetSlot_within {label : String} {p : Param} {v? slot : Option Value}
    (hv : Value.MaybeWithin R v?) (h : presetSlot label p v? = .ok slot) :
    Value.MaybeWithin R slot := by
  unfold presetSlot at h
  split at h
  · cases h
    exact .none
  · cases h
    exact .none
  · split at h
    · cases h
      exact .some Value.within_logic
    · split at h
      · cases h
        exact hv
      · cases h

theorem presetOf {a : Action} {scope : ScopeId} {p : Param} {index : Nat} (h : .scope scope ∈ R) :
    T.Holds R Value.MaybeWithin (presetOf a scope p index) (presetOf a scope p index) := by
  unfold Homoicon.presetOf
  split
  · exact T.bind (T.lookup h) fun _ v? _ hv => T.ofExcept fun _ hslot => presetSlot_within hv hslot
  · exact T.ret .none

theorem presetSlots {a : Action} {scope : ScopeId} {params : List (Param × Nat)}
    (h : .scope scope ∈ R) :
    T.Holds R (fun S slots => ∀ slot ∈ slots, Value.MaybeWithin S slot)
      (presetSlots a scope params) (presetSlots a scope params) := by
  induction params generalizing R with
  | nil => exact T.ret (by simp)
  | cons entry rest ih =>
    refine T.bind (T.presetOf h) fun _ slot le₁ hslot => T.bind (ih (le₁ h)) fun _ slots le₂ hslots => ?_
    exact T.ret (List.forall_mem_cons.2 ⟨hslot.mono le₂, hslots⟩)

theorem definePresets {a : Action} {scope : ScopeId} {params : List (Param × Nat)}
    (h : .scope scope ∈ R) (ha : a.Within R) :
    T.Holds R (fun _ _ => True) (definePresets a scope params) (definePresets a scope params) := by
  induction params generalizing R with
  | nil => exact T.ret trivial
  | cons entry rest ih =>
    refine T.bind (T.onlyIf fun _ => T.define h ?_) fun _ _ le _ => ih (le h) (ha.mono le)
    exact (ha.preset _).getD Value.within_void

theorem generator {op : Generator} (N : T.Nested ev ev') (h : c.Within R) :
    T.Holds R Bounce.Within (op.run ev c) (op.run ev' c) := by
  cases op with
  | func =>
    refine T.bind (T.block h) fun _ items le₁ _ => T.bind (T.block (h.mono le₁)) fun _ body le₂ hb => ?_
    refine T.bind T.check fun _ spec le₃ _ => T.bind T.check fun _ params le₄ _ => ?_
    have le := le₁.trans (le₂.trans (le₃.trans le₄))
    refine T.bind (T.scope (h.mono le)) fun _ scope le₅ hscope => ?_
    refine T.bind T.freshIdentity fun _ _ le₆ _ => T.bind T.note fun _ _ le₇ _ => ?_
    refine T.newAction (Action.within_iff.2 ⟨Dispatcher.within_interpreted.2 ⟨?_, ?_⟩, by simp⟩)
    · exact le₇ (le₆ hscope)
    · exact hb.mono (le₃.trans (le₄.trans (le₅.trans (le₆.trans le₇))))
  | specialize =>
    refine T.bind (T.action h) fun _ a le₁ ha => ?_
    refine T.bind (T.block (h.mono le₁)) fun _ definition le₂ hd => ?_
    refine T.bind (T.scope (h.mono (le₁.trans le₂))) fun R₃ outer le₃ ho => ?_
    have houter : ∀ s ∈ some outer, Handle.scope s ∈ R₃ := by
      rintro _ ⟨⟩
      exact ho
    refine T.bind (T.newScope houter) fun _ scope le₄ hscope => ?_
    have ha₄ := ha.mono (le₂.trans (le₃.trans le₄))
    refine T.bind (T.definePresets hscope ha₄) fun _ _ le₅ _ => ?_
    refine T.bind (N.runUnits (le₅ hscope) (hd.mono (le₃.trans (le₄.trans le₅)))) fun _ _ le₆ _ => ?_
    refine T.bind (T.presetSlots (le₆ (le₅ hscope))) fun _ slots le₇ hslots => ?_
    exact T.newAction ((ha₄.mono (le₅.trans (le₆.trans le₇))).specialized hslots)
  | adapt =>
    refine T.bind (T.action h) fun _ a le₁ ha => ?_
    refine T.bind (T.block (h.mono le₁)) fun _ prelude le₂ hp => ?_
    refine T.bind (T.scope (h.mono (le₁.trans le₂))) fun _ scope le₃ hscope => ?_
    have ha₃ := ha.mono (le₂.trans le₃)
    refine T.newAction (Action.within_iff.2 ⟨?_, (Action.within_iff.1 ha₃).2⟩)
    exact Dispatcher.within_adapted.2 ⟨hscope, hp.mono le₃, ha₃⟩
  | enfix =>
    refine T.bind (T.action h) fun _ a _ ha => T.bind T.check fun _ deferral le _ => ?_
    refine T.bind (T.ofExcept fun b hb => (ha.mono le).enfixWith hb) fun _ b _ hb => ?_
    exact T.newAction hb
  | take =>
    have hs := h.state.slot 0
    simp only [Generator.run, Call.slot]
    split
    · rename_i hv
      rw [hv] at hs
      refine T.bind (T.takeFrom N (Value.within_varargs.1 hs).1) fun _ _ _ hv => T.ret hv
    · exact T.mismatch
  | isTail =>
    have hs := h.state.slot 0
    simp only [Generator.run, Call.slot]
    split
    · rename_i hv
      rw [hv] at hs
      refine T.bind (T.atArgumentEnd (Value.within_varargs.1 hs).1) fun _ _ _ _ => ?_
      exact T.ret Value.within_logic
    · exact T.ret Value.within_logic
    · exact T.mismatch
  | varargs =>
    refine T.bind (T.block h) fun _ items le₁ hi => T.bind (T.scope (h.mono le₁)) fun _ scope le₂ hs => ?_
    refine T.bind (P := Value.Within) ?_ fun _ _ _ hv => T.ret hv
    refine T.bind (T.newFeed hs (hi.mono le₂)) fun _ feed _ hf => ?_
    refine T.bind T.freshIdentity fun _ _ le _ => T.ret ?_
    exact Value.within_varargs.2 ⟨le hf, by simp⟩

/-! ### Operations of a host -/

theorem hostOperation {op : HostOperation} (h : c.Within R) :
    T.Holds R Bounce.Within (op.run c) (op.run c) := by
  have hs := h.state.slot 0
  cases op with
  | echo => exact T.ret (Value.within_block.2 h.state.slots)
  | double => exact T.bind T.integer fun _ _ _ _ => T.ret (.of_nil rfl)
  | joinText =>
    simp only [HostOperation.run]
    split
    · exact T.ret Value.within_text
    · exact T.mismatch
  | frameHere =>
    exact T.bind (T.reifyCall h.state) fun _ _ _ hf => T.ret (Value.within_frame.2 hf)
  | varargsFrame =>
    simp only [HostOperation.run, Call.slot]
    split
    · rename_i hv
      rw [hv] at hs
      split
      · exact T.ret (Value.within_frame.2 ((Value.within_varargs.1 hs).2 _ ‹_›))
      · exact T.ret Value.within_null
    · exact T.mismatch
  | callInfo =>
    refine T.bind (P := Value.Within) ?_ fun _ _ _ hv => T.ret hv
    refine T.bind (T.command trivial) fun _ depth _ _ => T.bind (T.command trivial) fun _ tick _ _ => ?_
    refine T.bind (T.command trivial) fun _ labels _ _ => T.ret (Value.within_block.2 ?_)
    refine List.forall_mem_append.2 ⟨?_, fun v hv => ?_⟩
    · simp only [List.forall_mem_cons]
      exact ⟨.of_nil rfl, .of_nil rfl, .of_nil rfl, .of_nil rfl, .of_nil rfl, by simp⟩
    · obtain ⟨_, -, rfl⟩ := List.mem_map.1 hv
      exact Value.within_text
  | requestHalt => exact T.bind (T.command trivial) fun _ _ _ _ => T.ret trivial
  | rawCall =>
    simp only [HostOperation.run]
    split
    · refine T.bind (T.scope h) fun _ _ le₁ hscope => T.bind (T.lookup hscope) fun _ v? le₂ hv => ?_
      split
      · have ha := Action.within_iff.1 (Value.within_action.1 (hv _ rfl))
        have hc := Action.within_iff.1 (h.mono (le₁.trans le₂)).state.action
        exact T.ret (Action.within_iff.2 ⟨ha.1, hc.2⟩)
      · exact T.mismatch
    · exact T.mismatch
  | redoInto => exact T.bind (T.action h) fun _ _ _ ha => T.ret ha
  | accepts =>
    refine T.bind (T.action h) fun _ a _ _ => T.bind T.integer fun _ index _ _ => ?_
    split
    · exact T.ret Value.within_logic
    · exact T.ret (.of_nil rfl)

theorem runOperation {op : Operation} (N : T.Nested ev ev') (h : c.Within R) :
    T.Holds R Bounce.Within (op.run ev c) (op.run ev' c) := by
  cases op with
  | arithmetic op =>
    exact T.bind (T.ofExcept fun _ hv => .of_nil (Arithmetic.run_handles hv)) fun _ _ _ hv => T.ret hv
  | comparison op =>
    exact T.bind (T.ofExcept fun _ hv => .of_nil (Comparison.run_handles hv)) fun _ _ _ hv => T.ret hv
  | control op => exact T.control N h
  | access op => exact T.access N h
  | generator op => exact T.generator N h
  | host op => exact T.hostOperation h

end Tandem

end Homoicon
