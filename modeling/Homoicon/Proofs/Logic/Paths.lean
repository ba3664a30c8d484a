import Homoicon.Evaluate.Lookahead
import Homoicon.Evaluate.Varargs
import Homoicon.Proofs.Logic

/-!
# Paths, escapes and varargs in a logic
-/

namespace Homoicon

variable {F : Facts}

structure PendingCall.Good (F : Facts) (p : PendingCall) : Prop where
  action : p.action.Good F
  left : Value.GoodMaybe F p.left

def PathOutcome.Good (F : Facts) : PathOutcome → Prop
  | .call p => p.Good F
  | .value v => v.Good F

theorem pickItem?_good {container key : Value} (h : container.Good F) :
    Value.GoodMaybe F (pickItem? container key) := by
  have item : ∀ {items : List Value} {index? : Option Nat}, Value.GoodAll F items →
      Value.GoodMaybe F (index?.map fun i => (items[i]?).getD .null) := by
    intro items index? hitems
    cases index? with
    | none => trivial
    | some i => exact (hitems.get? i).getD trivial
  unfold pickItem?
  split
  · exact item h
  · exact item h
  · exact item h
  · rename_i s n
    cases position? n with
    | none => trivial
    | some i => cases h : s.toList[i]? <;> simp [Value.GoodMaybe, Value.Good, h]
  · trivial

namespace Logic

variable {L : Logic F} {ev : Evaluator} {cur : Place} {feed : FeedId}

theorem badPath {α : Type} {Q : α → Prop} {items : List Value} :
    L.Holds cur Q (Eval.fail (badPath items)) :=
  L.failWith (by simp)

theorem pick {container key : Value} (h : container.Good F) :
    L.Holds cur (Value.GoodMaybe F) (pick container key) := by
  unfold Homoicon.pick
  split
  · rename_i f name
    exact L.ask (.frameArgument f.id name) trivial trivial
  · exact L.ret (pickItem?_good h)

variable (N : L.Nested ev)
include N

theorem evalPathGroup {items : List Value} (h : Value.GoodAll F items) :
    L.Holds cur (Value.Good F) (ev.evalPathGroup feed items) :=
  L.bind L.scopeOf fun _ _ => L.bind (N.runUnits h) fun _ hv => L.ret (hv.getD trivial)

theorem segmentRequest {v : Value} (h : v.Good F) :
    L.Holds cur (fun _ => True) (ev.segmentRequest feed v) := by
  unfold Evaluator.segmentRequest
  split
  · exact L.ret trivial
  · refine L.bind (L.evalPathGroup N h) fun v _ => ?_
    split
    · exact L.ret trivial
    · exact L.ret trivial
    · exact L.ret trivial
    · exact L.ret trivial
    · exact L.failWith (by simp)
  · exact L.failWith (by simp)

theorem requestsOf {found : List String} {segments : List Value} (h : Value.GoodAll F segments) :
    L.Holds cur (fun _ => True) (ev.requestsOf feed found segments) := by
  induction segments generalizing found with
  | nil => exact L.ret trivial
  | cons segment rest ih =>
    unfold Evaluator.requestsOf
    refine L.bind (L.segmentRequest N h.1) fun name? _ => ?_
    split
    · exact ih h.2
    · split
      · exact L.failWith (by simp)
      · exact ih h.2

theorem segmentKey {v : Value} (h : v.Good F) :
    L.Holds cur (Value.Good F) (ev.segmentKey feed v) := by
  unfold Evaluator.segmentKey
  split
  · exact L.evalPathGroup N h
  · exact L.ret h

theorem pickAlong {whole : List Value} {current : Value} {segments : List Value}
    (hc : current.Good F) (h : Value.GoodAll F segments) :
    L.Holds cur (Value.Good F) (ev.pickAlong feed whole current segments) := by
  induction segments generalizing current with
  | nil => exact L.ret hc
  | cons segment rest ih =>
    unfold Evaluator.pickAlong
    refine L.bind (L.segmentKey N h.1) fun key _ => L.bind (L.pick hc) fun v? hv => ?_
    cases v? with
    | none => exact L.badPath
    | some v => exact ih hv h.2

theorem pathHead {whole : List Value} {head : Value} (h : head.Good F) :
    L.Holds cur (fun r => r.1.Good F) (ev.pathHead feed whole head) := by
  unfold Evaluator.pathHead
  split
  · exact L.bind L.resolve fun _ hv => L.ret hv
  · exact L.bind (L.evalPathGroup N h) fun _ hv => L.ret hv
  · split
    · exact L.ret h
    · exact L.badPath

theorem evalPath {items : List Value} {invoke : Bool} (h : Value.GoodAll F items) :
    L.Holds cur (PathOutcome.Good F) (ev.evalPath feed items invoke) := by
  unfold Evaluator.evalPath
  split
  · exact L.badPath
  · refine L.bind (L.pathHead N h.1) fun (v, label) hv => ?_
    dsimp only at hv ⊢
    split
    · split
      · exact L.bind (L.requestsOf N h.2) fun _ _ => L.ret ⟨hv, trivial⟩
      · split
        · exact L.ret hv
        · exact L.badPath
    · exact L.bind (L.pickAlong N hv h.2) fun _ hr => L.ret hr

theorem evalPathValue {items : List Value} (h : Value.GoodAll F items) :
    L.Holds cur (Value.Good F) (ev.evalPathValue feed items) := by
  refine L.bind (L.evalPath N h) fun r hr => ?_
  cases r with
  | value v => exact L.ret hr
  | call p => exact L.failWith (by simp)

theorem assignPath {items : List Value} {v : Value} (h : Value.GoodAll F items) (hv : v.Good F) :
    L.Holds cur (fun _ => True) (ev.assignPath feed items v) := by
  unfold Evaluator.assignPath
  split
  · refine L.bind (L.segmentKey N h.2.1) fun key _ => L.bind L.resolve fun held hheld => ?_
    split
    · split
      · refine L.bind L.scopeOf fun _ _ => L.assign ?_
        exact Value.GoodAll.set hheld _ hv
      · exact L.badPath
    · exact L.badPath
  · exact L.badPath

theorem softEscape {v : Value} (h : v.Good F) :
    L.Holds cur (Value.GoodMaybe F) (ev.softEscape feed v) := by
  unfold Evaluator.softEscape
  split
  · exact L.bind L.scopeOf fun _ _ => N.runUnits h
  · exact L.bind L.resolveGet fun _ hv => L.ret hv
  · exact L.bind (L.evalPathValue N h) fun _ hv => L.ret hv
  · exact L.ret h

theorem evalSilenced {v : Value} (h : v.Good F) :
    L.Holds cur (Value.GoodMaybe F) (ev.evalSilenced feed v) := by
  unfold Evaluator.evalSilenced
  split
  · exact L.bind L.resolveGet fun _ hv => L.ret hv
  · exact L.bind L.scopeOf fun _ _ => N.runUnits h
  · exact L.bind (L.evalPathValue N h) fun _ hv => L.ret hv
  · exact L.bind (L.evalPathValue N h) fun _ hv => L.ret hv
  · exact L.ret h

theorem pullValue {v : Varargs} : L.Holds cur (Value.GoodMaybe F) (ev.pullValue v) := by
  unfold Evaluator.pullValue
  split
  · exact N.evalExpression
  · exact L.bind L.peek fun _ hv => L.bind L.advance fun _ _ => L.ret hv
  · refine L.bind L.peek fun unit? hu => ?_
    cases unit? with
    | none => exact L.ret trivial
    | some unit => exact L.bind L.advance fun _ _ => L.softEscape N hu

theorem takeFrom {v : Varargs} : L.Holds cur (Value.Good F) (ev.takeFrom v) := by
  refine L.bind L.atArgumentEnd fun tail _ => ?_
  split
  · exact L.ret trivial
  · refine L.bind (L.pullValue N) fun pulled hp => ?_
    dsimp only
    split
    · exact L.failWith (by simp)
    · exact L.ret (hp.getD trivial)

theorem claimedUnit {p : Param} {unit : Value} (h : unit.Good F) :
    L.Holds cur (Value.Good F) (ev.claimedUnit feed p unit) := by
  unfold Evaluator.claimedUnit
  split
  · exact L.bind (L.softEscape N h) fun _ hv => L.ret (hv.getD trivial)
  · exact L.ret h

end Logic

end Homoicon
