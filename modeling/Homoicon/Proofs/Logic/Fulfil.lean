import Homoicon.Evaluate.Fulfil
import Homoicon.Proofs.Logic.Paths

/-!
# Fulfilment in a logic
-/

namespace Homoicon

variable {F : Facts}

structure CallState.Good (F : Facts) (c : CallState) : Prop where
  action : c.action.Good F
  slots : Value.GoodAll F c.slots

namespace CallState.Good

variable {c : CallState}

theorem slot (h : c.Good F) (i : Nat) : (c.slot i).Good F := (h.slots.get? i).getD trivial

theorem fill (h : c.Good F) (i : Nat) {v : Value} (hv : v.Good F) : (c.fill i v).Good F :=
  ⟨h.action, h.slots.set i hv⟩

theorem refill (h : c.Good F) (i : Nat) {v : Value} (hv : v.Good F) : (c.refill i v).Good F :=
  ⟨h.action, h.slots.set i hv⟩

theorem start {p : PendingCall} (h : p.Good F) : (CallState.start p).Good F := by
  refine ⟨h.action, Value.goodAll_iff.2 fun v hv => ?_⟩
  obtain ⟨_, -, rfl⟩ := List.mem_map.1 hv
  trivial

theorem fillNulls (h : c.Good F) (indices : List Nat) :
    (indices.foldl (fun c i => c.fill i .null) c).Good F ∧
      (indices.foldl (fun c i => c.fill i .null) c).action = c.action := by
  induction indices generalizing c with
  | nil => exact ⟨h, rfl⟩
  | cons i rest ih => exact ih (h.fill i trivial)

theorem arguments (h : c.Good F) : Bindings.Good F c.arguments := by
  rintro ⟨name, v⟩ he
  obtain ⟨⟨⟨p, w⟩, i⟩, hmem, hif⟩ := List.mem_filterMap.1 he
  have hw := (List.of_mem_zip (List.fst_mem_of_mem_zipIdx hmem)).2
  simp only [Option.ite_none_right_eq_some, Option.some.injEq, Prod.mk.injEq] at hif
  rw [← hif.2.2]
  exact Value.goodAll_iff.1 h.slots w hw

end CallState.Good

namespace Logic

variable {L : Logic F} {ev : Evaluator} {cur : Place} {frame : Frame} {c : CallState}
  {p : Param}

theorem checkType {label : String} {v : Value} :
    L.Holds cur (fun _ => True) (Eval.ofExcept (checkType label p v)) := by
  unfold Homoicon.checkType
  split
  · exact L.ret trivial
  · exact L.failWith (by simp)

theorem checkUnless {excused : Bool} {label : String} {v : Value} :
    L.Holds cur (fun _ => True) (Eval.ofExcept (checkUnless excused label p v)) := by
  unfold Homoicon.checkUnless
  split
  · exact L.ret trivial
  · exact L.checkType

theorem reifyCall {id : FrameId} (h : c.Good F) :
    L.Holds cur (fun _ => True) (reifyCall id c) :=
  L.bind (L.command trivial h.arguments) fun _ _ => L.ret trivial

theorem leftArgument {left : Value} {label : String} (h : left.Good F) :
    L.Holds cur (Value.Good F) (Evaluator.leftArgument left p label) := by
  unfold Evaluator.leftArgument
  split
  · refine L.bind L.newScope fun _ _ => L.bind (L.newFeed ⟨h.quotedIfNeeded, trivial⟩) fun _ _ => ?_
    exact L.bind L.freshIdentity fun _ _ => L.ret trivial
  · exact L.ret h

theorem fillLeft? {left : Option Value} (h : c.Good F) (hl : Value.GoodMaybe F left) :
    L.Holds cur (fun c' => c'.Good F ∧ c'.action = c.action) (Evaluator.fillLeft? c left) := by
  cases left with
  | none => exact L.ret ⟨h, rfl⟩
  | some left =>
    simp only [Evaluator.fillLeft?, Evaluator.fillLeft]
    split
    · exact L.failWith (by simp)
    · split
      · exact L.ret ⟨h, rfl⟩
      · refine L.bind (L.leftArgument hl) fun v hv => ?_
        exact L.bind L.checkUnless fun _ _ => L.ret ⟨h.fill _ hv, rfl⟩

theorem noteRefinement {index : Nat} (h : c.Good F) :
    L.Holds cur (fun c' => c'.Good F ∧ c'.action = c.action)
      (Eval.ofExcept (Evaluator.noteRefinement c p index)) := by
  refine L.ofExcept ?_
  unfold Evaluator.noteRefinement
  have hm : CallState.Good F { c with requests := Evaluator.matchRequest p.name c.requests } :=
    ⟨h.action, h.slots⟩
  split
  · exact F.fault_of (by simp)
  · dsimp only
    split
    · have hf := hm.fill index (v := .refinement p.name) trivial
      split
      · exact ⟨hf, rfl⟩
      · exact ⟨⟨hf.action, hf.slots⟩, rfl⟩
    · have hf := hm.fill index (v := .null) trivial
      exact hf.fillNulls _

theorem checkRequests :
    L.Holds cur (fun _ => True) (Eval.ofExcept (Evaluator.checkRequests c)) := by
  unfold Evaluator.checkRequests
  split
  · exact L.failWith (by simp)
  · exact L.ret trivial

theorem revokeIfNull {r : Nat} {arguments : List Nat} (h : c.Good F) :
    L.Holds cur (fun c' => c'.Good F ∧ c'.action = c.action)
      (Evaluator.revokeIfNull c r arguments) := by
  unfold Evaluator.revokeIfNull
  split
  · exact L.ret ⟨h, rfl⟩
  · dsimp only
    split
    · exact L.failWith (by simp)
    · split
      · exact L.bind L.note fun _ _ => L.ret ⟨h.refill r trivial, rfl⟩
      · exact L.ret ⟨h, rfl⟩

theorem returnAction {id : FrameId} : L.Holds cur (Value.Good F) (Evaluator.returnAction id) := by
  refine L.bind L.freshIdentity fun _ _ => L.bind L.freshIdentity fun _ _ => L.ret ?_
  exact ⟨trivial, trivial, by rintro _ ⟨⟩⟩

variable (N : L.Nested ev)
include N

theorem gatherEvaluated {feed : FeedId} :
    L.Holds cur (Value.GoodMaybe F) (ev.gatherEvaluated feed c p) := by
  refine L.bind (L.onlyIf (fun _ => L.setNoLookahead) fun _ => trivial) fun _ _ => ?_
  refine L.bind N.evalExpression fun v? hv => ?_
  cases v? with
  | some v => exact L.ret hv
  | none =>
    dsimp only
    split
    · exact L.ret trivial
    · exact L.failWith (by simp)

theorem gather {feed : FeedId} {index : Nat} (h : c.Good F) :
    L.Holds cur (fun r => Value.GoodMaybe F r.1 ∧ r.2.Good F ∧ r.2.action = c.action)
      (ev.gather feed c p index) := by
  refine L.bind L.atArgumentEnd fun ended _ => ?_
  split
  · split
    · exact L.ret ⟨trivial, h, rfl⟩
    · exact L.failWith (by simp)
  · refine L.bind L.deferring fun deferring _ => ?_
    split
    · exact L.bind L.peek fun _ _ => L.fail (F.fault_inCall (F.fault_of (by simp)))
    · refine L.bind L.peek fun unit? hu => ?_
      split
      · exact L.failWith (by simp)
      · split
        · split
          · exact L.ret ⟨trivial, h, rfl⟩
          · exact L.bind L.advance fun _ _ => L.ret ⟨hu, h, rfl⟩
        · refine L.bind L.advance fun _ _ => L.bind (L.softEscape N hu) fun v hv => ?_
          exact L.ret ⟨hv.getD trivial, h, rfl⟩
        · split
          · exact L.failWith (by simp)
          · refine L.bind L.advance fun _ _ => L.bind (L.evalSilenced N hu) fun v hv => ?_
            exact L.ret ⟨hv.getD trivial, ⟨h.action, h.slots⟩, rfl⟩
        · exact L.bind (L.gatherEvaluated N) fun _ hv => L.ret ⟨hv, h, rfl⟩

theorem fillParam {index : Nat} (h : c.Good F) :
    L.Holds cur (fun c' => c'.Good F ∧ c'.action = c.action) (ev.fillParam frame c p index) := by
  unfold Evaluator.fillParam
  split
  · rename_i preset hpreset
    have hp := h.action.preset index
    rw [hpreset] at hp
    exact L.bind L.checkUnless fun _ _ => L.ret ⟨h.fill index hp, rfl⟩
  · split
    · exact L.ret ⟨h.fill index trivial, rfl⟩
    · exact L.bind L.returnAction fun _ hv => L.ret ⟨h.fill index hv, rfl⟩
    · refine L.bind (L.reifyCall h) fun _ _ => L.bind L.freshIdentity fun _ _ => ?_
      exact L.ret ⟨h.fill index trivial, rfl⟩
    · exact L.failWith (by simp)
    · refine L.bind (L.gather N h) fun (taken, c') ⟨ht, hc, ha⟩ => ?_
      dsimp only at ht hc ha ⊢
      cases taken with
      | none => exact L.ret ⟨hc.fill index trivial, ha⟩
      | some v => exact L.bind L.checkUnless fun _ _ => L.ret ⟨hc.fill index ht, ha⟩

theorem mainPass {entries : List (Param × Nat)} (h : c.Good F) :
    L.Holds cur (fun c' => c'.Good F ∧ c'.action = c.action) (ev.mainPass frame entries c) := by
  induction entries generalizing c with
  | nil => exact L.ret ⟨h, rfl⟩
  | cons entry rest ih =>
    unfold Evaluator.mainPass
    split
    · exact ih h
    · split
      · refine L.bind (L.noteRefinement h) fun c₁ ⟨h₁, ha⟩ => ?_
        exact ha ▸ ih h₁
      · refine L.bind (L.fillParam N h) fun c₁ ⟨h₁, ha⟩ => ?_
        exact ha ▸ ih h₁

theorem fillAll {indices : List Nat} (h : c.Good F) :
    L.Holds cur (fun c' => c'.Good F ∧ c'.action = c.action) (ev.fillAll frame indices c) := by
  induction indices generalizing c with
  | nil => exact L.ret ⟨h, rfl⟩
  | cons index rest ih =>
    unfold Evaluator.fillAll
    split
    · exact ih h
    · split
      · exact ih h
      · refine L.bind (L.fillParam N h) fun c₁ ⟨h₁, ha⟩ => ?_
        exact ha ▸ ih h₁

theorem pickupPass {pending : List Nat} (h : c.Good F) :
    L.Holds cur (fun c' => c'.Good F ∧ c'.action = c.action) (ev.pickupPass frame pending c) := by
  induction pending generalizing c with
  | nil => exact L.ret ⟨h, rfl⟩
  | cons r rest ih =>
    refine L.bind (L.fillAll N h) fun c₁ ⟨h₁, ha₁⟩ => ?_
    refine L.bind (L.revokeIfNull h₁) fun c₂ ⟨h₂, ha₂⟩ => ?_
    rw [← ha₁, ← ha₂]
    exact ih h₂

theorem fulfil {left : Option Value} (h : c.Good F) (hl : Value.GoodMaybe F left) :
    L.Holds cur (fun c' => c'.Good F ∧ c'.action = c.action) (ev.fulfil frame left c) := by
  refine L.bind (L.fillLeft? h hl) fun c₁ ⟨h₁, ha₁⟩ => ?_
  refine L.bind (L.mainPass N h₁) fun c₂ ⟨h₂, ha₂⟩ => L.bind L.checkRequests fun _ _ => ?_
  rw [← ha₁, ← ha₂]
  exact L.pickupPass N h₂

end Logic

end Homoicon
