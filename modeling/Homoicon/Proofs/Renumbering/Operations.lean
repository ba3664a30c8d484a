import Homoicon.Proofs.Formed
import Homoicon.Proofs.Renumbering.Fulfil

/-!
# Operations under a renumbering
-/

namespace Homoicon

variable {ρ : Renumbering}

structure Call.Matches (ρ : Renumbering) (c c' : Call) : Prop where
  frame : c'.frame = ρ.callFrame c.frame
  state : c.state.Matches ρ c'.state

inductive Bounce.Matches (ρ : Renumbering) : Bounce → Bounce → Prop
  | out {v v' : Value} (h : v.Matches ρ v') : Bounce.Matches ρ (.out v) (.out v')
  | invisible : Bounce.Matches ρ .invisible .invisible
  | redo {a a' : Action} (h : a.Matches ρ a') (checked : Bool) :
    Bounce.Matches ρ (.redo a checked) (.redo a' checked)

/-! ### Slots -/

namespace Renumbering

variable {ev : Evaluator} {c c' : Call} {i : Nat}

theorem mismatch {α : Type} {Q : α → α → Prop} (h : c.Matches ρ c') (i : Nat) :
    ρ.Holds Q (c.mismatch i) (c'.mismatch i) := by
  unfold Call.mismatch
  rw [h.state.mismatch]
  exact .fail (.refl _)

theorem integer (h : c.Matches ρ c') (i : Nat) : ρ.Holds Eq (c.integer i) (c'.integer i) := by
  have bad := mismatch (Q := @Eq Int64) h i
  have hslot : (c.slot i).Matches ρ (c'.slot i) := h.state.slot i
  unfold Call.integer
  generalize c.slot i = v, c'.slot i = v' at hslot
  cases hslot with
  | integer n => exact .ret rfl
  | _ => exact bad

theorem block (h : c.Matches ρ c') (i : Nat) :
    ρ.Holds (Value.AllMatch ρ) (c.block i) (c'.block i) := by
  have bad := mismatch (Q := Value.AllMatch ρ) h i
  have hslot : (c.slot i).Matches ρ (c'.slot i) := h.state.slot i
  unfold Call.block
  generalize c.slot i = v, c'.slot i = v' at hslot
  cases hslot with
  | block h => exact .ret h
  | _ => exact bad

theorem action (h : c.Matches ρ c') (i : Nat) :
    ρ.Holds (Action.Matches ρ) (c.action i) (c'.action i) := by
  have bad := mismatch (Q := Action.Matches ρ) h i
  have hslot : (c.slot i).Matches ρ (c'.slot i) := h.state.slot i
  unfold Call.action
  generalize c.slot i = v, c'.slot i = v' at hslot
  cases hslot with
  | action id h => exact .ret h
  | _ => exact bad

theorem callScope (h : c.Matches ρ c') : ρ.Holds Eq c.scope c'.scope := by
  unfold Call.scope
  rw [h.frame]
  exact .scopeOf

theorem runBlock {items items' : List Value} (N : ρ.Nested ev) (h : c.Matches ρ c')
    (hitems : Value.AllMatch ρ items items') :
    ρ.Holds (Value.MaybeMatch ρ) (ev.runBlock c items) (ev.runBlock c' items') := by
  refine (callScope h).bind fun s _ hs => ?_
  subst hs
  exact N.runUnits hitems

theorem runBranch {items items' : List Value} (N : ρ.Nested ev) (h : c.Matches ρ c')
    (hitems : Value.AllMatch ρ items items') :
    ρ.Holds (Bounce.Matches ρ) (ev.runBranch c items) (ev.runBranch c' items') :=
  (runBlock N h hitems).bind fun _ _ hv => .ret (.out (rel_getD hv .void))

end Renumbering

/-! ### Arithmetic and comparison -/

/-- Whether a value is of a kind that has an order. -/
def Value.isOrdered : Value → Bool
  | integer _ | decimal _ | text _ => true
  | _ => false

theorem CallState.ordering_of_unordered (c : CallState) (h : (c.slot 0).isOrdered = false) :
    c.ordering =
      if (c.slot 1).kind = .text then .error (c.mismatch 0) else c.orderly none := by
  unfold CallState.ordering
  split
  case h_7 hw _ =>
    rw [hw]
    rfl
  case h_8 hw _ _ _ _ _ =>
    have hkind : (c.slot 1).kind ≠ .text := by
      intro hkind
      cases hslot : c.slot 1 with
      | text s => exact hw s hslot
      | _ =>
        rw [hslot] at hkind
        cases hkind
    rw [if_neg hkind]
  all_goals simp [Value.isOrdered, *] at h

namespace CallState.Matches

variable {c c' : CallState} (h : c.Matches ρ c')
include h

theorem decimals : c'.decimals = c.decimals := by
  have hdecimal : ∀ i, (c'.slot i).asDecimal? = (c.slot i).asDecimal? := by
    intro i
    have hslot := h.slot i
    generalize c.slot i = v, c'.slot i = v' at hslot
    cases hslot <;> rfl
  unfold CallState.decimals
  rw [hdecimal, hdecimal, h.mismatch, h.mismatch]

theorem approximate (f : Float → Float → Float) :
    ExceptRel (Fault.Matches ρ) (Value.Matches ρ)
      (do let (x, y) ← c.decimals; return .decimal (f x y))
      (do let (x, y) ← c'.decimals; return .decimal (f x y)) := by
  rw [h.decimals]
  refine (ExceptRel.refl .refl (fun _ => rfl) c.decimals).bind fun r _ hr => ?_
  subst hr
  exact .ok (.decimal _)

theorem ringResult (op : Arithmetic) :
    ExceptRel (Fault.Matches ρ) (Value.Matches ρ) (c.ringResult op) (c'.ringResult op) := by
  have h0 := h.slot 0
  have h1 := h.slot 1
  unfold CallState.ringResult
  generalize c.slot 0 = v, c'.slot 0 = v', c.slot 1 = w, c'.slot 1 = w' at h0 h1
  cases h0 with
  | integer a =>
    cases h1 with
    | integer b =>
      dsimp only
      split
      · exact .ok (.integer _)
      · exact .error (.refl _)
    | _ => exact h.approximate op.approximate
  | _ => exact h.approximate op.approximate

theorem quotient :
    ExceptRel (Fault.Matches ρ) (Value.Matches ρ) c.quotient c'.quotient := by
  have h0 := h.slot 0
  have h1 := h.slot 1
  unfold CallState.quotient
  rw [h.decimals]
  refine (ExceptRel.refl .refl (fun _ => rfl) c.decimals).bind fun r _ hr => ?_
  subst hr
  dsimp only
  split
  · exact .error (.refl _)
  · generalize c.slot 0 = v, c'.slot 0 = v', c.slot 1 = w, c'.slot 1 = w' at h0 h1
    cases h0 with
    | integer a =>
      cases h1 with
      | integer b =>
        dsimp only
        split
        · exact .ok (.integer _)
        · exact .ok (.decimal _)
      | _ => exact .ok (.decimal _)
    | _ => exact .ok (.decimal _)

theorem negated : ExceptRel (Fault.Matches ρ) (Value.Matches ρ) c.negated c'.negated := by
  have h0 := h.slot 0
  unfold CallState.negated
  rw [h.mismatch]
  generalize c.slot 0 = v, c'.slot 0 = v' at h0
  cases h0 with
  | integer n =>
    dsimp only
    split
    · exact .ok (.integer _)
    · exact .error (.refl _)
  | decimal x => exact .ok (.decimal _)
  | _ => exact .error (.refl _)

theorem arithmetic (op : Arithmetic) :
    ExceptRel (Fault.Matches ρ) (Value.Matches ρ) (op.run c) (op.run c') := by
  cases op with
  | add | subtract | multiply => exact h.ringResult _
  | divide => exact h.quotient
  | negate => exact h.negated

theorem orderly (o : Option Ordering) :
    ExceptRel (Fault.Matches ρ) Eq (c.orderly o) (c'.orderly o) := by
  cases o with
  | some o => exact .ok rfl
  | none =>
    have h0 := (h.slot 0).mold
    have h1 := (h.slot 1).mold
    exact .error (.of (.append (.append (.append (.refl _) h0) (.refl _)) h1))

theorem ordering : ExceptRel (Fault.Matches ρ) Eq c.ordering c'.ordering := by
  have h0 := h.slot 0
  have h1 := h.slot 1
  have ordered := h.orderly
  by_cases hscalar : (c.slot 0).isOrdered = false
  · have hscalar' : (c'.slot 0).isOrdered = false := by
      generalize c.slot 0 = v, c'.slot 0 = v' at h0 hscalar
      cases h0 <;> first | rfl | cases hscalar
    rw [c.ordering_of_unordered hscalar, c'.ordering_of_unordered hscalar', h1.kind, h.mismatch]
    split
    · exact .error (.refl _)
    · exact ordered none
  · unfold CallState.ordering
    rw [h.mismatch, h.mismatch]
    generalize c.slot 0 = v, c'.slot 0 = v', c.slot 1 = w, c'.slot 1 = w' at h0 h1 hscalar
    cases h0 with
    | integer a =>
      cases h1 with
      | integer b => exact .ok rfl
      | decimal b => exact ordered _
      | text s => exact .error (.refl _)
      | _ => exact ordered none
    | decimal a =>
      cases h1 with
      | integer b | decimal b => exact ordered _
      | text s => exact .error (.refl _)
      | _ => exact ordered none
    | text a =>
      cases h1 with
      | text b => exact .ok rfl
      | _ => exact .error (.refl _)
    | _ => exact absurd rfl hscalar

theorem comparison (op : Comparison) :
    ExceptRel (Fault.Matches ρ) (Value.Matches ρ) (op.run c) (op.run c') := by
  cases op with
  | equal negated =>
    unfold Comparison.run
    rw [(h.slot 0).same (h.slot 1)]
    exact .ok (.logic _)
  | lesser _ | greater _ =>
    refine h.ordering.bind fun o _ ho => ?_
    subst ho
    exact .ok (.logic _)
  | not =>
    unfold Comparison.run
    rw [(h.slot 0).isTruthy]
    exact .ok (.logic _)

end CallState.Matches

/-! ### Control flow -/

inductive LoopFlow.Matches (ρ : Renumbering) : LoopFlow → LoopFlow → Prop
  | next {v v' : Option Value} (h : Value.MaybeMatch ρ v v') :
    LoopFlow.Matches ρ (.next v) (.next v')
  | stop : LoopFlow.Matches ρ .stop .stop

theorem catchNames?_matches {v v' : Option Value} (h : Value.MaybeMatch ρ v v') :
    Option.Rel (Value.AllMatch ρ) (catchNames? v) (catchNames? v') := by
  cases h with
  | none => exact .none
  | some h =>
    cases h with
    | word name => exact .some (.cons (.word name) .nil)
    | block h => exact .some h
    | _ => exact .none

namespace Renumbering

variable {ev : Evaluator} {c c' : Call} {body body' condition condition' : List Value}
  {last last' : Option Value}

variable (N : ρ.Nested ev)
include N

theorem runLoopBody (h : c.Matches ρ c') (hbody : Value.AllMatch ρ body body') :
    ρ.Holds (LoopFlow.Matches ρ) (ev.runLoopBody c body) (ev.runLoopBody c' body') := by
  refine Holds.handle ?_ (.loop body body') fun s s' hs => .ret ?_
  · exact (runBlock N h hbody).bind fun _ _ hv => .ret (.next hv)
  · obtain ⟨label, payload⟩ := s
    obtain ⟨label', payload'⟩ := s'
    obtain ⟨hlabel, -⟩ := hs
    cases hlabel with
    | breakLoop => exact .stop
    | _ => exact .next .none

theorem loopTimes {n : Nat} (h : c.Matches ρ c') (hbody : Value.AllMatch ρ body body')
    (hlast : Value.MaybeMatch ρ last last') :
    ρ.Holds (Value.Matches ρ) (ev.loopTimes c body last n) (ev.loopTimes c' body' last' n) := by
  induction n generalizing last last' with
  | zero => exact .ret (rel_getD hlast .null)
  | succ n ih =>
    refine (runLoopBody N h hbody).bind fun flow flow' hflow => ?_
    cases hflow with
    | next hv => exact ih (rel_or hv hlast)
    | stop => exact .ret .null

theorem loopWhile {n : Nat} (h : c.Matches ρ c') (hcondition : Value.AllMatch ρ condition condition')
    (hbody : Value.AllMatch ρ body body') (hlast : Value.MaybeMatch ρ last last') :
    ρ.Holds (Value.Matches ρ) (ev.loopWhile c condition body last n)
      (ev.loopWhile c' condition' body' last' n) := by
  induction n generalizing last last' with
  | zero => exact .exhaust
  | succ n ih =>
    refine (runBlock N h hcondition).bind fun test test' htest => ?_
    have hany : test'.any Value.isTruthy = test.any Value.isTruthy := by
      cases htest with
      | none => rfl
      | some hv => exact hv.isTruthy
    rw [hany]
    split
    · refine (runLoopBody N h hbody).bind fun flow flow' hflow => ?_
      cases hflow with
      | next hv => exact ih (rel_or hv hlast)
      | stop => exact .ret .null
    · exact .ret (rel_getD hlast .null)

theorem control {op : Control} (h : c.Matches ρ c') :
    ρ.Holds (Bounce.Matches ρ) (op.run ev c) (op.run ev c') := by
  have hslot : ∀ i, (c.slot i).Matches ρ (c'.slot i) := h.state.slot
  cases op with
  | ifTrue =>
    refine (block h 1).bind fun branch branch' hbranch => ?_
    rw [(hslot 0).isTruthy]
    split
    · exact runBranch N h hbranch
    · exact .ret (.out .null)
  | either =>
    unfold Control.run
    dsimp only
    rw [(hslot 0).isTruthy]
    exact (block h _).bind fun branch branch' hbranch => runBranch N h hbranch
  | loop =>
    refine (integer h 0).bind fun count _ hcount => ?_
    subst hcount
    refine (block h 1).bind fun body body' hbody => ?_
    exact (loopTimes N h hbody .none).bind fun _ _ hv => .ret (.out hv)
  | whileTrue =>
    refine (block h 0).bind fun condition condition' hcondition => ?_
    refine (block h 1).bind fun body body' hbody => ?_
    exact (loopWhile N h hcondition hbody .none).bind fun _ _ hv => .ret (.out hv)
  | breakLoop => exact .signal ⟨.breakLoop, .null⟩
  | continueLoop => exact .signal ⟨.continueLoop, .null⟩
  | catchThrow =>
    refine (block h 0).bind fun body body' hbody => ?_
    refine Holds.bind ?_ fun _ _ hv => .ret (.out hv)
    refine Holds.handle ?_ (.catching (catchNames?_matches (h.state.named? "names"))) ?_
    · exact (runBlock N h hbody).bind fun _ _ hv => .ret (rel_getD hv .null)
    · exact fun s s' hs => Holds.note.bind fun _ _ _ => .ret hs.payload
  | throwValue =>
    have hname := h.state.named? "word"
    refine .signal ⟨.throw ?_, hslot 0⟩
    generalize c.state.named? "word" = o, c'.state.named? "word" = o' at hname
    cases hname with
    | none => exact .none
    | some hv =>
      cases hv with
      | word w => exact .some (.word w)
      | _ => exact .none
  | trap =>
    refine (block h 0).bind fun body body' hbody => ?_
    refine (runBlock N h hbody).catchFault.bind fun r r' hr => ?_
    cases hr with
    | ok _ => exact .ret (.out .null)
    | error hf =>
      refine Holds.note.bind fun _ _ _ => Holds.freshIdentity.bind fun id _ hid => ?_
      subst hid
      exact .ret (.out (.error id hf))
  | fail =>
    have bad := mismatch (Q := Bounce.Matches ρ) h 0
    have h0 := hslot 0
    unfold Control.run
    dsimp only
    generalize c.slot 0 = v, c'.slot 0 = v' at h0
    cases h0 with
    | text s => exact .failWith (.refl _)
    | error id hf => exact .fail hf
    | _ => exact bad
  | halt => exact .signal .halt
  | thenBranch =>
    refine (block h 1).bind fun branch branch' hbranch => ?_
    rw [(hslot 0).isNull]
    split
    · exact .ret (.out .null)
    · exact runBranch N h hbranch
  | elseBranch =>
    refine (block h 1).bind fun branch branch' hbranch => ?_
    rw [(hslot 0).isNull]
    split
    · exact runBranch N h hbranch
    · exact .ret (.out (hslot 0))
  | alsoBranch =>
    refine (block h 1).bind fun branch branch' hbranch => ?_
    rw [(hslot 0).isNull]
    split
    · exact .ret (.out .null)
    · exact (runBlock N h hbranch).bind fun _ _ _ => .ret (.out (hslot 0))
  | accept => exact .signal ⟨.dialect _, hslot 0⟩
  | reject => exact .signal ⟨.dialect _, .null⟩

end Renumbering

/-! ### Code as data -/

mutual

theorem Value.Formed.matches : ∀ v : Value, v.Formed → v.Matches ρ v
  | .block items, h => .block (Value.FormedAll.matches items h)
  | .group items, h => .group (Value.FormedAll.matches items h)
  | .path items, h => .path (Value.FormedSegments.matches items h.2.2.2)
  | .setPath items, h => .setPath (Value.FormedSegments.matches items h.2.2)
  | .getPath items, h => .getPath (Value.FormedSegments.matches items h.2.2)
  | .sym payload, h => .sym (Value.Formed.matches payload h.1)
  | .quoted payload, h => .quoted (Value.Formed.matches payload h)
  | .void, _ | .blank, _ | .integer _, _ | .decimal _, _ | .text _, _ | .comma, _ | .word _, _
  | .setWord _, _ | .getWord _, _ | .refinement _, _ | .tag _, _ => by constructor
  | .null, h | .logic _, h | .datatype _, h | .action _ _, h | .varargs _ _, h | .frame _, h
  | .error _ _, h => h.elim

theorem Value.FormedAll.matches : ∀ items : List Value, Value.FormedAll items →
    Value.AllMatch ρ items items
  | [], _ => .nil
  | v :: rest, h => .cons (Value.Formed.matches v h.1) (Value.FormedAll.matches rest h.2)

theorem Value.FormedSegments.matches : ∀ items : List Value, Value.FormedSegments items →
    Value.AllMatch ρ items items
  | [], _ => .nil
  | v :: rest, h =>
    .cons (Value.FormedSegment.matches v h.1) (Value.FormedSegments.matches rest h.2)

theorem Value.FormedSegment.matches (v : Value) (h : v.FormedSegment) : v.Matches ρ v := by
  cases v with
  | word name => exact .word name
  | integer n => exact .integer n
  | decimal x => exact .decimal x
  | group items => exact .group (Value.FormedAll.matches items h)
  | _ => exact h.elim

end

namespace Renumbering

variable {ev : Evaluator} {c c' : Call} {name : String}

theorem valueOf (h : c.Matches ρ c') :
    ρ.Holds (Value.Matches ρ) (c.valueOf name) (c'.valueOf name) := by
  refine (callScope h).bind fun s _ hs => ?_
  subst hs
  refine Holds.lookup.bind fun o o' ho => ?_
  cases ho with
  | none => exact .failWith (.refl _)
  | some hv => exact .ret hv

theorem doUnits (h : c.Matches ρ c') :
    ρ.Holds (Value.AllMatch ρ) (doUnits c) (doUnits c') := by
  have bad := mismatch (Q := Value.AllMatch ρ) h 0
  have h0 : (c.slot 0).Matches ρ (c'.slot 0) := h.state.slot 0
  unfold Homoicon.doUnits
  generalize c.slot 0 = v, c'.slot 0 = v' at h0
  cases h0 with
  | block h | group h => exact .ret h
  | text s =>
    dsimp only
    split
    · exact .ret (Value.FormedAll.matches _ (Source.scan_formed ‹_›))
    · exact .failWith (.refl _)
  | _ => exact bad

theorem isUnset_matches {o o' : Option Value} (h : Value.MaybeMatch ρ o o') :
    isUnset o' = isUnset o := by
  cases h with
  | none => rfl
  | some h => cases h <;> rfl

variable (N : ρ.Nested ev)
include N

theorem printedLine (h : c.Matches ρ c') :
    ρ.Holds (Option.Rel ρ.Alike) (ev.printedLine c) (ev.printedLine c') := by
  have h0 : (c.slot 0).Matches ρ (c'.slot 0) := h.state.slot 0
  have form := h0.form
  unfold Evaluator.printedLine
  generalize c.slot 0 = v, c'.slot 0 = v' at h0 form
  cases h0 with
  | null => exact .ret .none
  | block hitems =>
    refine (callScope h).bind fun s _ hs => ?_
    subst hs
    refine (N.reduceUnits hitems).bind fun values values' hvalues => .ret (.some ?_)
    exact .intercalate (List.rel_map (fun _ _ hv => hv.form) hvalues) _
  | _ => exact .ret (.some form)

theorem defaultTarget (h : c.Matches ρ c') :
    ρ.Holds (Value.MaybeMatch ρ) (ev.defaultTarget c) (ev.defaultTarget c') := by
  have bad := mismatch (Q := Value.MaybeMatch ρ) h 0
  have h0 : (c.slot 0).Matches ρ (c'.slot 0) := h.state.slot 0
  unfold Evaluator.defaultTarget
  rw [h.frame]
  generalize c.slot 0 = v, c'.slot 0 = v' at h0
  cases h0 with
  | setWord name =>
    refine (callScope h).bind fun s _ hs => ?_
    subst hs
    exact .lookup
  | setPath hitems =>
    refine (evalPath N hitems).bind fun r r' hr => ?_
    cases hr with
    | call _ => exact bad
    | value hv => exact .ret (.some hv)
  | _ => exact bad

theorem access {op : Access} (h : c.Matches ρ c') :
    ρ.Holds (Bounce.Matches ρ) (op.run ev c) (op.run ev c') := by
  have hslot : ∀ i, (c.slot i).Matches ρ (c'.slot i) := h.state.slot
  have bad := mismatch (Q := Bounce.Matches ρ) h 0
  cases op with
  | doSource => exact (doUnits h).bind fun _ _ hunits => runBranch N h hunits
  | reduce =>
    refine (block h 0).bind fun items items' hitems => (callScope h).bind fun s _ hs => ?_
    subst hs
    exact (N.reduceUnits hitems).bind fun _ _ hvalues => .ret (.out (.block hvalues))
  | quote => exact .ret (.out (.quoted (hslot 0)))
  | the => exact .ret (.out (hslot 0))
  | comment | elide => exact .ret .invisible
  | get =>
    have h0 := hslot 0
    unfold Access.run
    dsimp only
    rw [h.frame]
    generalize c.slot 0 = v, c'.slot 0 = v' at h0
    cases h0 with
    | word name | getWord name => exact (valueOf h).bind fun _ _ hv => .ret (.out hv)
    | path hitems =>
      refine (evalPath N hitems).bind fun r r' hr => ?_
      cases hr with
      | call _ => exact bad
      | value hv => exact .ret (.out hv)
    | _ => exact bad
  | set =>
    unfold Access.run
    dsimp only
    rw [(hslot 0).wordName?]
    cases (c.slot 0).wordName? with
    | none => exact bad
    | some name =>
      refine (callScope h).bind fun s _ hs => ?_
      subst hs
      exact (Holds.assign (hslot 1)).bind fun _ _ _ => .ret (.out (hslot 1))
  | typeOf =>
    unfold Access.run
    dsimp only
    rw [(hslot 0).isNull, (hslot 0).kind]
    split
    · exact .ret (.out .null)
    · exact .ret (.out (.datatype _))
  | isNull =>
    unfold Access.run
    dsimp only
    rw [(hslot 0).isNull]
    exact .ret (.out (.logic _))
  | print =>
    refine (printedLine N h).bind fun o o' ho => ?_
    cases ho with
    | none => exact .ret (.out .null)
    | some hline => exact (Holds.printLine hline).bind fun _ _ _ => .ret (.out .void)
  | assignDefault =>
    refine (block h 1).bind fun branch branch' hbranch => ?_
    refine (defaultTarget N h).bind fun current current' hcurrent => ?_
    rw [isUnset_matches hcurrent]
    split
    · refine (runBlock N h hbranch).bind fun o o' ho => ?_
      have hv := rel_getD ho Value.Matches.null
      have h0 := hslot 0
      dsimp only
      rw [h.frame]
      generalize c.slot 0 = v, c'.slot 0 = v' at h0
      cases h0 with
      | setWord name =>
        refine (callScope h).bind fun s _ hs => ?_
        subst hs
        exact (Holds.assign hv).bind fun _ _ _ => .ret (.out hv)
      | setPath hitems => exact (assignPath N hitems hv).bind fun _ _ _ => .ret (.out hv)
      | _ => exact bad
    · exact .ret (.out (rel_getD hcurrent .null))

end Renumbering

/-! ### Specs -/

theorem ExceptRel.foldlM {ε α β γ : Type} {E : ε → ε → Prop} {R : α → β → Prop}
    {f : γ → α → Except ε γ} {g : γ → β → Except ε γ} {l : List α} {l' : List β}
    (h : List.Forall₂ R l l') (hf : ∀ s a b, R a b → ExceptRel E Eq (f s a) (g s b)) (s : γ) :
    ExceptRel E Eq (l.foldlM f s) (l'.foldlM g s) := by
  induction h generalizing s with
  | nil => exact .ok rfl
  | cons h _ ih =>
    rw [List.foldlM_cons, List.foldlM_cons]
    refine (hf s _ _ h).bind fun t _ ht => ?_
    subst ht
    exact ih t

namespace Spec

abbrev Reads (ρ : Renumbering) {α : Type} : Except Fault α → Except Fault α → Prop :=
  ExceptRel (Fault.Matches ρ) Eq

variable {items items' : List Value} {v v' : Value} {α : Type}

theorem Reads.same (r : Except Fault α) : Reads ρ r r := .refl .refl (fun _ => rfl) r

theorem Reads.fault {s s' : String} (h : ρ.Alike s s') :
    Reads ρ (Spec.fault s : Except Fault α) (Spec.fault s') :=
  .error (.of (.append (.refl _) h))

theorem add_matches (h : v.Matches ρ v') (e : TypeEntries) : Reads ρ (e.add v) (e.add v') := by
  have bad : Reads ρ (Spec.fault ("bad type entry " ++ v.mold) : Except Fault TypeEntries)
      (Spec.fault ("bad type entry " ++ v'.mold)) := Reads.fault (.append (.refl _) h.mold)
  cases h with
  | word _ | tag _ => exact Reads.same _
  | _ => exact bad

theorem readTypes_matches (h : Value.AllMatch ρ items items') :
    Reads ρ (readTypes items) (readTypes items') := by
  refine (ExceptRel.foldlM h (fun e _ _ hv => add_matches hv e) _).bind fun e _ he => ?_
  subst he
  exact Reads.same _

theorem typedParam_matches (p : Param) (h : Value.AllMatch ρ items items') :
    Reads ρ (typedParam p items) (typedParam p items') := by
  unfold typedParam
  split
  · exact Reads.same _
  · refine (readTypes_matches h).bind fun r _ hr => ?_
    subst hr
    exact Reads.same _

theorem readItem_matches (r : Reading) (first : Bool) (h : v.Matches ρ v') :
    Reads ρ (r.readItem first v) (r.readItem first v') := by
  have bad : Reads ρ (Spec.fault ("unexpected " ++ v.mold ++ " in spec") : Except Fault Reading)
      (Spec.fault ("unexpected " ++ v'.mold ++ " in spec")) :=
    Reads.fault (.append (.append (.refl _) h.mold) (.refl _))
  cases h with
  | text _ | tag _ | setWord _ | word _ | getWord _ | refinement _ => exact Reads.same _
  | block h =>
    unfold Reading.readItem Reading.declareTypes
    dsimp only
    split
    · exact Reads.same _
    · refine (typedParam_matches _ h).bind fun p _ hp => ?_
      subst hp
      exact Reads.same _
  | quoted h =>
    have badQuoted := h.mold
    cases h with
    | word _ => exact Reads.same _
    | _ => exact Reads.fault (.append (.refl _) badQuoted)
  | sym h =>
    have badSym := h.mold
    cases h with
    | word _ => exact Reads.same _
    | _ => exact Reads.fault (.append (.refl _) badSym)
  | _ => exact bad

theorem next_matches (r : Reading) (h : v.Matches ρ v') : Reads ρ (r.next v) (r.next v') := by
  have item := readItem_matches { r with first := false, pendingReturn := false } r.first h
  unfold Reading.next
  dsimp only
  cases r.pendingReturn with
  | false => exact item
  | true =>
    cases h with
    | block h =>
      refine (readTypes_matches h).bind fun t _ ht => ?_
      subst ht
      exact Reads.same _
    | _ => exact item

theorem read_matches (h : Value.AllMatch ρ items items') :
    Reads ρ (Spec.read items) (Spec.read items') := by
  refine (ExceptRel.foldlM h (fun r _ _ hv => next_matches r hv) _).bind fun r _ hr => ?_
  subst hr
  exact Reads.same _

end Spec

/-! ### Making actions -/

namespace Renumbering

variable {ev : Evaluator} {c c' : Call} {a a' : Action} {scope : ScopeId} {p : Param}

theorem presetSlot {label : String} {o o' : Option Value} (h : Value.MaybeMatch ρ o o') :
    ExceptRel (Fault.Matches ρ) (Value.MaybeMatch ρ) (presetSlot label p o)
      (presetSlot label p o') := by
  cases h with
  | none => exact .ok .none
  | @some v v' h =>
    have other : ExceptRel (Fault.Matches ρ) (Value.MaybeMatch ρ)
        (if p.role = .refinement then .ok (some (.logic v.isTruthy))
          else if (v.isNull && p.owner.isSome) || p.types.accepts v then .ok (some v)
          else .error (.of (.wrongType label p.name v.kind)))
        (if p.role = .refinement then .ok (some (.logic v'.isTruthy))
          else if (v'.isNull && p.owner.isSome) || p.types.accepts v' then .ok (some v')
          else .error (.of (.wrongType label p.name v'.kind))) := by
      rw [h.isTruthy, h.isNull, h.accepts, h.kind]
      split
      · exact .ok (.some (.logic _))
      · split
        · exact .ok (.some h)
        · exact .error (.refl _)
    cases h with
    | void => exact .ok .none
    | _ => exact other

theorem presetOf {i : Nat} (h : a.Matches ρ a') :
    ρ.Holds (Value.MaybeMatch ρ) (presetOf a scope p i) (presetOf a' scope p i) := by
  unfold Homoicon.presetOf Action.isSpecializable
  rw [h.bindsWord, h.labelOr]
  split
  · exact Holds.lookup.bind fun _ _ ho => .ofExcept (presetSlot ho)
  · exact .ret .none

theorem presetSlots {entries : List (Param × Nat)} (h : a.Matches ρ a') :
    ρ.Holds (List.Forall₂ (Value.MaybeMatch ρ)) (presetSlots a scope entries)
      (presetSlots a' scope entries) := by
  induction entries with
  | nil => exact .ret .nil
  | cons entry rest ih =>
    exact (presetOf h).bind fun _ _ ho => ih.bind fun _ _ hs => .ret (.cons ho hs)

theorem definePresets {entries : List (Param × Nat)} (h : a.Matches ρ a') :
    ρ.Holds (fun _ _ => True) (definePresets a scope entries) (definePresets a' scope entries) := by
  induction entries with
  | nil => exact .ret trivial
  | cons entry rest ih =>
    unfold Homoicon.definePresets Action.isSpecializable
    rw [h.bindsWord]
    refine (Holds.onlyIf fun _ => ?_).bind fun _ _ _ => ih
    exact .define (rel_getD (h.preset? _) .void)

theorem newAction (h : a.Matches ρ a') :
    ρ.Holds (Bounce.Matches ρ) (newAction a) (newAction a') := by
  refine Holds.freshIdentity.bind fun id _ hid => ?_
  subst hid
  exact .ret (.out (.action id h))

theorem enfixWith {deferral : Deferral} (h : a.Matches ρ a') :
    ExceptRel (Fault.Matches ρ) (Action.Matches ρ) (a.enfixWith deferral)
      (a'.enfixWith deferral) := by
  unfold Action.enfixWith
  rw [h.firstParam?, h.labelOr]
  split
  · cases h with
    | mk label params signature d e enfixed old description =>
      exact .ok (.mk label params signature d e true deferral description)
  · exact .error (.refl _)

theorem adapting {prelude prelude' : List Value} (h : a.Matches ρ a')
    (hp : Value.AllMatch ρ prelude prelude') :
    Action.Matches ρ
      { a with
        label := none, enfixed := false, deferral := .none
        dispatcher := .adapted prelude scope a }
      { a' with
        label := none, enfixed := false, deferral := .none
        dispatcher := .adapted prelude' scope a' } := by
  have adaptee := h
  cases h with
  | mk label params signature d e enfixed deferral description =>
    exact .mk none params signature (.adapted hp scope adaptee) e false .none description

theorem blockVarargs {items items' : List Value} (h : Value.AllMatch ρ items items') :
    ρ.Holds (Value.Matches ρ) (Evaluator.blockVarargs items scope)
      (Evaluator.blockVarargs items' scope) := by
  refine (Holds.newFeed h).bind fun f _ hf => ?_
  subst hf
  refine Holds.freshIdentity.bind fun id _ hid => ?_
  subst hid
  exact .ret (.varargs id _)

theorem isTail {v : Varargs} :
    ρ.Holds Eq v.isTail (Varargs.isTail { v with frame := v.frame.map ρ.frameRef }) :=
  Holds.atArgumentEnd

variable (N : ρ.Nested ev)
include N

theorem pullValue {v : Varargs} :
    ρ.Holds (Value.MaybeMatch ρ) (ev.pullValue v)
      (ev.pullValue { v with frame := v.frame.map ρ.frameRef }) := by
  unfold Evaluator.pullValue
  dsimp only
  cases v.pull with
  | evaluate => exact N.evalExpression
  | hard => exact Holds.peek.bind fun _ _ ho => Holds.advance.bind fun _ _ _ => .ret ho
  | soft =>
    refine Holds.peek.bind fun o o' ho => ?_
    cases ho with
    | none => exact .ret .none
    | some hunit => exact Holds.advance.bind fun _ _ _ => softEscape N hunit

theorem takeFrom {v : Varargs} :
    ρ.Holds (Value.Matches ρ) (ev.takeFrom v)
      (ev.takeFrom { v with frame := v.frame.map ρ.frameRef }) := by
  refine Holds.bind isTail fun ended _ he => ?_
  subst he
  split
  · exact .ret .null
  · refine (pullValue N).bind fun o o' ho => ?_
    have hv := rel_getD ho Value.Matches.null
    dsimp only
    rw [hv.isNull, hv.accepts, hv.kind]
    split
    · exact .failWith (.refl _)
    · exact .ret hv

theorem generator {op : Generator} (h : c.Matches ρ c') :
    ρ.Holds (Bounce.Matches ρ) (op.run ev c) (op.run ev c') := by
  have hslot : ∀ i, (c.slot i).Matches ρ (c'.slot i) := h.state.slot
  have bad := mismatch (Q := Bounce.Matches ρ) h 0
  cases op with
  | func =>
    refine (block h 0).bind fun items items' hitems => (block h 1).bind fun body body' hbody => ?_
    refine (Holds.ofExcept (Spec.read_matches hitems)).bind fun spec _ hs => ?_
    subst hs
    refine (Holds.ofExcept (Spec.Reads.same _)).bind fun params _ hp => ?_
    subst hp
    refine (callScope h).bind fun s _ hs => ?_
    subst hs
    refine Holds.freshIdentity.bind fun signature _ hs => Holds.note.bind fun _ _ _ => ?_
    subst hs
    exact newAction (.mk _ _ _ (.interpreted hbody s) .none _ _ _)
  | specialize =>
    refine (action h 0).bind fun a a' ha => (block h 1).bind fun items items' hitems => ?_
    refine (callScope h).bind fun outer _ hs => ?_
    subst hs
    refine Holds.newScope.bind fun s _ hs => ?_
    subst hs
    rw [ha.params]
    refine (definePresets ha).bind fun _ _ _ => (N.runUnits hitems).bind fun _ _ _ => ?_
    exact (presetSlots ha).bind fun _ _ hslots => newAction (ha.specialized hslots)
  | adapt =>
    refine (action h 0).bind fun a a' ha => (block h 1).bind fun prelude prelude' hp => ?_
    refine (callScope h).bind fun s _ hs => ?_
    subst hs
    exact newAction (adapting ha hp)
  | enfix =>
    refine (action h 0).bind fun a a' ha => ?_
    have hdeferral : requestedDeferral c'.state = requestedDeferral c.state := by
      rw [requestedDeferral, requestedDeferral, h.state.uses, h.state.uses]
    rw [hdeferral]
    refine (Holds.ofExcept (Spec.Reads.same _)).bind fun deferral _ hd => ?_
    subst hd
    exact (Holds.ofExcept (enfixWith ha)).bind fun _ _ hb => newAction hb
  | take =>
    have h0 := hslot 0
    unfold Generator.run
    dsimp only
    generalize c.slot 0 = v, c'.slot 0 = v' at h0
    cases h0 with
    | varargs id v => exact (takeFrom N).bind fun _ _ hv => .ret (.out hv)
    | _ => exact bad
  | isTail =>
    have h0 := hslot 0
    unfold Generator.run
    dsimp only
    generalize c.slot 0 = v, c'.slot 0 = v' at h0
    cases h0 with
    | varargs id v =>
      refine Holds.bind isTail fun tail _ ht => ?_
      subst ht
      exact .ret (.out (.logic tail))
    | block hitems =>
      dsimp only
      cases hitems <;> exact .ret (.out (.logic _))
    | _ => exact bad
  | varargs =>
    refine (block h 0).bind fun items items' hitems => (callScope h).bind fun s _ hs => ?_
    subst hs
    exact (blockVarargs hitems).bind fun _ _ hv => .ret (.out hv)

end Renumbering

/-! ### Operations of a host -/

theorem namedText_matches {c c' : CallState} (h : c.Matches ρ c') (name : String) :
    namedText c' name = namedText c name := by
  have hnamed := h.named? name
  unfold namedText
  generalize c.named? name = o, c'.named? name = o' at hnamed
  cases hnamed with
  | none => rfl
  | some hv => cases hv <;> rfl

namespace Renumbering

variable {ev : Evaluator} {c c' : Call}

theorem callReport {s s' : CallState} (h : s.Matches ρ s') :
    ρ.Holds (Value.Matches ρ) (callReport s) (callReport s') := by
  unfold Homoicon.callReport
  rw [h.label, h.uses, h.uses]
  refine Holds.depth.bind fun depth _ hd => Holds.tick.bind fun tick _ ht => ?_
  subst hd ht
  refine Holds.backtrace.bind fun labels _ hl => ?_
  subst hl
  refine .ret (.block ?_)
  refine List.rel_append ?_ (List.forall₂_same.2 fun v hv => ?_)
  · exact .cons (.text _) (.cons (.logic _) (.cons (.logic _) (.cons (.integer _)
      (.cons (.integer _) .nil))))
  · obtain ⟨s, -, rfl⟩ := List.mem_map.1 hv
    exact .text s

theorem host {op : HostOperation} (h : c.Matches ρ c') :
    ρ.Holds (Bounce.Matches ρ) (op.run c) (op.run c') := by
  have hslot : ∀ i, (c.slot i).Matches ρ (c'.slot i) := h.state.slot
  have bad : ∀ i, ρ.Holds (Bounce.Matches ρ) (c.mismatch i) (c'.mismatch i) := mismatch h
  cases op with
  | echo => exact .ret (.out (.block h.state.slots))
  | double =>
    refine (integer h 0).bind fun n _ hn => ?_
    subst hn
    exact .ret (.out (.integer _))
  | joinText =>
    have h0 := hslot 0
    have h1 := hslot 1
    have bad := bad 0
    unfold HostOperation.run
    dsimp only
    rw [namedText_matches h.state]
    generalize c.slot 0 = v, c'.slot 0 = v', c.slot 1 = w, c'.slot 1 = w' at h0 h1
    cases h0 with
    | text left =>
      cases h1 with
      | text right => exact .ret (.out (.text _))
      | _ => exact bad
    | _ => exact bad
  | frameHere =>
    unfold HostOperation.run
    rw [h.frame]
    refine (reifyCall h.state).bind fun f _ hf => ?_
    subst hf
    exact .ret (.out (.frame f))
  | varargsFrame =>
    have h0 := hslot 0
    have bad := bad 0
    unfold HostOperation.run
    dsimp only
    generalize c.slot 0 = v, c'.slot 0 = v' at h0
    cases h0 with
    | varargs id v =>
      dsimp only
      cases v.frame with
      | none => exact .ret (.out .null)
      | some f => exact .ret (.out (.frame f))
    | _ => exact bad
  | callInfo => exact (callReport h.state).bind fun _ _ hv => .ret (.out hv)
  | requestHalt => exact Holds.requestStop.bind fun _ _ _ => .ret .invisible
  | rawCall =>
    have h3 := hslot 3
    have bad := bad 3
    unfold HostOperation.run
    dsimp only
    rw [h.state.uses]
    generalize c.slot 3 = v, c'.slot 3 = v' at h3
    cases h3 with
    | word name =>
      refine (callScope h).bind fun s _ hs => ?_
      subst hs
      refine Holds.lookup.bind fun o o' ho => ?_
      cases ho with
      | none => exact bad
      | some hv =>
        cases hv with
        | action id ha =>
          refine .ret (.redo ?_ _)
          have hcall := h.state.action
          have hd := ha.dispatcher
          generalize c.state.action = b, c'.state.action = b' at hcall
          cases hcall with
          | mk label params signature _ e enfixed deferral description =>
            exact .mk label params signature hd e enfixed deferral description
        | _ => exact bad
    | _ => exact bad
  | redoInto => exact (action h 0).bind fun _ _ ha => .ret (.redo ha false)
  | accepts =>
    refine (action h 0).bind fun a a' ha => (integer h 1).bind fun i _ hi => ?_
    subst hi
    rw [ha.params]
    split
    · rw [(hslot 2).accepts]
      exact .ret (.out (.logic _))
    · exact .ret (.out (.datatype _))

theorem operation {op : Operation} (N : ρ.Nested ev) (h : c.Matches ρ c') :
    ρ.Holds (Bounce.Matches ρ) (op.run ev c) (op.run ev c') := by
  cases op with
  | arithmetic op =>
    exact (Holds.ofExcept (h.state.arithmetic op)).bind fun _ _ hv => .ret (.out hv)
  | comparison op =>
    exact (Holds.ofExcept (h.state.comparison op)).bind fun _ _ hv => .ret (.out hv)
  | control op => exact control N h
  | access op => exact access N h
  | generator op => exact generator N h
  | host op => exact host h

end Renumbering

end Homoicon
