import Homoicon.Proofs.Tandem

/-!
# Paths, escapes and varargs in tandem
-/

namespace Homoicon

variable {R S : Region}

structure PendingCall.Within (R : Region) (p : PendingCall) : Prop where
  action : p.action.Within R
  left : Value.MaybeWithin R p.left

def PathOutcome.Within (R : Region) : PathOutcome → Prop
  | .call p => p.Within R
  | .value v => v.Within R

theorem pickItem?_within {container key : Value} (h : container.Within R) :
    Value.MaybeWithin R (pickItem? container key) := by
  have item : ∀ {items : List Value} {index? : Option Nat}, Value.AllWithin R items →
      Value.MaybeWithin R (index?.map fun i => (items[i]?).getD .null) := by
    intro items index? hitems
    cases index? with
    | none => exact .none
    | some i => exact .some ((hitems.get? i).getD Value.within_null)
  unfold pickItem?
  split
  · exact item (Value.within_block.1 h)
  · exact item (Value.within_group.1 h)
  · exact item (Value.within_block.1 h)
  · rename_i s n
    cases position? n with
    | none => exact .none
    | some i =>
      refine .some ?_
      cases hc : s.toList[i]? with
      | none => simp [hc]
      | some c => simp [hc]
  · exact .none

namespace Tandem

variable {T : Tandem} {ev ev' : Evaluator} {feed : FeedId}

theorem pick {container key : Value} (h : container.Within R) :
    T.Holds R Value.MaybeWithin (pick container key) (pick container key) := by
  unfold Homoicon.pick
  split
  · rename_i f name
    exact T.ask (.frameArgument f.id name) (Value.within_frame.1 h)
  · exact T.ret (pickItem?_within h)

variable (N : T.Nested ev ev')
include N

theorem evalPathGroup {items : List Value} (hf : .feed feed ∈ R) (h : Value.AllWithin R items) :
    T.Holds R Value.Within (ev.evalPathGroup feed items) (ev'.evalPathGroup feed items) := by
  refine T.bind (T.scopeOf hf) fun _ _ le hs => T.bind (N.runUnits hs (h.mono le)) fun _ _ _ hv => ?_
  exact T.ret (hv.getD Value.within_null)

theorem segmentRequest {v : Value} (hf : .feed feed ∈ R) (h : v.Within R) :
    T.Holds R (fun _ _ => True) (ev.segmentRequest feed v) (ev'.segmentRequest feed v) := by
  unfold Evaluator.segmentRequest
  split
  · exact T.ret trivial
  · refine T.bind (T.evalPathGroup N hf (Value.within_group.1 h)) fun _ v _ _ => ?_
    split
    · exact T.ret trivial
    · exact T.ret trivial
    · exact T.ret trivial
    · exact T.ret trivial
    · exact T.fail
  · exact T.fail

theorem requestsOf {found : List String} {segments : List Value} (hf : .feed feed ∈ R)
    (h : Value.AllWithin R segments) :
    T.Holds R (fun _ _ => True) (ev.requestsOf feed found segments)
      (ev'.requestsOf feed found segments) := by
  induction segments generalizing found R with
  | nil => exact T.ret trivial
  | cons segment rest ih =>
    unfold Evaluator.requestsOf
    refine T.bind (T.segmentRequest N hf h.head) fun _ name? le _ => ?_
    split
    · exact ih (le hf) (h.tail.mono le)
    · split
      · exact T.failWith
      · exact ih (le hf) (h.tail.mono le)

theorem segmentKey {v : Value} (hf : .feed feed ∈ R) (h : v.Within R) :
    T.Holds R Value.Within (ev.segmentKey feed v) (ev'.segmentKey feed v) := by
  unfold Evaluator.segmentKey
  split
  · exact T.evalPathGroup N hf (Value.within_group.1 h)
  · exact T.ret h

theorem pickAlong {whole : List Value} {current : Value} {segments : List Value}
    (hf : .feed feed ∈ R) (hc : current.Within R) (h : Value.AllWithin R segments) :
    T.Holds R Value.Within (ev.pickAlong feed whole current segments)
      (ev'.pickAlong feed whole current segments) := by
  induction segments generalizing current R with
  | nil => exact T.ret hc
  | cons segment rest ih =>
    unfold Evaluator.pickAlong
    refine T.bind (T.segmentKey N hf h.head) fun _ key le _ => ?_
    refine T.bind (T.pick (hc.mono le)) fun _ v? le' hv => ?_
    cases v? with
    | none => exact T.fail
    | some v => exact ih (le' (le hf)) (hv v rfl) (h.tail.mono (le.trans le'))

theorem pathHead {whole : List Value} {head : Value} (hf : .feed feed ∈ R) (h : head.Within R) :
    T.Holds R (fun S r => r.1.Within S) (ev.pathHead feed whole head)
      (ev'.pathHead feed whole head) := by
  unfold Evaluator.pathHead
  split
  · exact T.bind (T.resolve hf) fun _ _ _ hv => T.ret hv
  · exact T.bind (T.evalPathGroup N hf (Value.within_group.1 h)) fun _ _ _ hv => T.ret hv
  · split
    · exact T.ret h
    · exact T.fail

theorem evalPath {items : List Value} {invoke : Bool} (hf : .feed feed ∈ R)
    (h : Value.AllWithin R items) :
    T.Holds R PathOutcome.Within (ev.evalPath feed items invoke)
      (ev'.evalPath feed items invoke) := by
  unfold Evaluator.evalPath
  split
  · exact T.fail
  · refine T.bind (T.pathHead N hf h.head) fun _ (v, label) le hv => ?_
    dsimp only at hv ⊢
    split
    · split
      · refine T.bind (T.requestsOf N (le hf) (h.tail.mono le)) fun _ _ le' _ => T.ret ?_
        exact ⟨Value.Within.mono hv le', .none⟩
      · split
        · exact T.ret hv
        · exact T.fail
    · refine T.bind (T.pickAlong N (le hf) hv (h.tail.mono le)) fun _ _ _ hr => T.ret ?_
      exact hr

theorem evalPathValue {items : List Value} (hf : .feed feed ∈ R) (h : Value.AllWithin R items) :
    T.Holds R Value.Within (ev.evalPathValue feed items) (ev'.evalPathValue feed items) := by
  refine T.bind (T.evalPath N hf h) fun _ r _ hr => ?_
  cases r with
  | value v => exact T.ret hr
  | call p => exact T.failWith

theorem assignPath {items : List Value} {v : Value} (hf : .feed feed ∈ R)
    (h : Value.AllWithin R items) (hv : v.Within R) :
    T.Holds R (fun _ _ => True) (ev.assignPath feed items v) (ev'.assignPath feed items v) := by
  unfold Evaluator.assignPath
  split
  · refine T.bind (T.segmentKey N hf h.tail.head) fun _ key le _ => ?_
    refine T.bind (T.resolve (le hf)) fun _ held le' hheld => ?_
    have hv' := hv.mono (le.trans le')
    split
    · split
      · refine T.bind (T.scopeOf (le' (le hf))) fun _ _ le'' hs => T.assign hs ?_
        refine Value.Within.mono ?_ le''
        exact Value.within_block.2 ((Value.within_block.1 hheld).set _ hv')
      · exact T.fail
    · exact T.fail
  · exact T.fail

theorem softEscape {v : Value} (hf : .feed feed ∈ R) (h : v.Within R) :
    T.Holds R Value.MaybeWithin (ev.softEscape feed v) (ev'.softEscape feed v) := by
  unfold Evaluator.softEscape
  split
  · exact T.bind (T.scopeOf hf) fun _ _ le hs =>
      N.runUnits hs ((Value.within_group.1 h).mono le)
  · exact T.bind (T.resolveGet hf) fun _ _ _ hv => T.ret (.some hv)
  · exact T.bind (T.evalPathValue N hf (Value.within_getPath.1 h)) fun _ _ _ hv => T.ret (.some hv)
  · exact T.ret (.some h)

theorem evalSilenced {v : Value} (hf : .feed feed ∈ R) (h : v.Within R) :
    T.Holds R Value.MaybeWithin (ev.evalSilenced feed v) (ev'.evalSilenced feed v) := by
  unfold Evaluator.evalSilenced
  split
  · exact T.bind (T.resolveGet hf) fun _ _ _ hv => T.ret (.some hv)
  · exact T.bind (T.scopeOf hf) fun _ _ le hs =>
      N.runUnits hs ((Value.within_group.1 h).mono le)
  · exact T.bind (T.evalPathValue N hf (Value.within_path.1 h)) fun _ _ _ hv => T.ret (.some hv)
  · exact T.bind (T.evalPathValue N hf (Value.within_getPath.1 h)) fun _ _ _ hv => T.ret (.some hv)
  · exact T.ret (.some h)

theorem pullValue {v : Varargs} (hf : .feed v.feed ∈ R) :
    T.Holds R Value.MaybeWithin (ev.pullValue v) (ev'.pullValue v) := by
  unfold Evaluator.pullValue
  split
  · exact N.evalExpression hf
  · refine T.bind (T.peek hf) fun _ _ _ hv => T.bind T.advance fun _ _ le _ => ?_
    exact T.ret (hv.mono le)
  · refine T.bind (T.peek hf) fun _ unit? le hu => ?_
    cases unit? with
    | none => exact T.ret .none
    | some unit =>
      exact T.bind T.advance fun _ _ le' _ =>
        T.softEscape N (le' (le hf)) ((hu unit rfl).mono le')

theorem takeFrom {v : Varargs} (hf : .feed v.feed ∈ R) :
    T.Holds R Value.Within (ev.takeFrom v) (ev'.takeFrom v) := by
  refine T.bind (T.atArgumentEnd hf) fun _ tail le _ => ?_
  split
  · exact T.ret Value.within_null
  · refine T.bind (T.pullValue N (le hf)) fun _ pulled _ hp => ?_
    dsimp only
    split
    · exact T.failWith
    · exact T.ret (hp.getD Value.within_null)

theorem claimedUnit {p : Param} {unit : Value} (hf : .feed feed ∈ R) (h : unit.Within R) :
    T.Holds R Value.Within (ev.claimedUnit feed p unit) (ev'.claimedUnit feed p unit) := by
  unfold Evaluator.claimedUnit
  split
  · exact T.bind (T.softEscape N hf h) fun _ _ _ hv => T.ret (hv.getD Value.within_null)
  · exact T.ret h

end Tandem

end Homoicon
