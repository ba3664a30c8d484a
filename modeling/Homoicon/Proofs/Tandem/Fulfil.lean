import Homoicon.Proofs.Tandem.Paths

/-!
# Fulfilment in tandem
-/

namespace Homoicon

variable {R S : Region}

structure CallState.Within (R : Region) (c : CallState) : Prop where
  action : c.action.Within R
  slots : Value.AllWithin R c.slots

namespace CallState.Within

variable {c : CallState}

theorem mono (h : c.Within R) (le : R ⊆ S) : c.Within S := ⟨h.action.mono le, h.slots.mono le⟩

theorem slot (h : c.Within R) (i : Nat) : (c.slot i).Within R :=
  (h.slots.get? i).getD Value.within_void

theorem fill (h : c.Within R) (i : Nat) {v : Value} (hv : v.Within R) : (c.fill i v).Within R :=
  ⟨h.action, h.slots.set i hv⟩

theorem refill (h : c.Within R) (i : Nat) {v : Value} (hv : v.Within R) :
    (c.refill i v).Within R :=
  ⟨h.action, h.slots.set i hv⟩

theorem start {p : PendingCall} (h : p.Within R) : (CallState.start p).Within R := by
  refine ⟨h.action, fun v hv => ?_⟩
  obtain ⟨_, -, rfl⟩ := List.mem_map.1 hv
  exact Value.within_void

theorem fillNulls (h : c.Within R) (indices : List Nat) :
    (indices.foldl (fun c i => c.fill i .null) c).Within R := by
  induction indices generalizing c with
  | nil => exact h
  | cons i rest ih => exact ih (h.fill i Value.within_null)

theorem arguments (h : c.Within R) : ∀ e ∈ c.arguments, e.2.Within R := by
  rintro ⟨name, v⟩ he
  obtain ⟨⟨⟨p, w⟩, i⟩, hmem, hif⟩ := List.mem_filterMap.1 he
  have hw := (List.of_mem_zip (List.fst_mem_of_mem_zipIdx hmem)).2
  simp only [Option.ite_none_right_eq_some, Option.some.injEq, Prod.mk.injEq] at hif
  rw [← hif.2.2]
  exact h.slots w hw

end CallState.Within

namespace Tandem

variable {T : Tandem} {ev ev' : Evaluator} {frame : Frame} {feed : FeedId} {c : CallState}
  {p : Param}

theorem reifyCall {id : FrameId} (h : c.Within R) :
    T.Holds R (fun S f => .frame f.id ∈ S) (reifyCall id c) (reifyCall id c) :=
  T.bind (T.ask (.reify id c.arguments) h.arguments) fun _ _ _ hf => T.ret hf

theorem leftArgument {left : Value} {label : String} (h : left.Within R) :
    T.Holds R Value.Within (Evaluator.leftArgument left p label)
      (Evaluator.leftArgument left p label) := by
  unfold Evaluator.leftArgument
  split
  · refine T.bind (T.newScope (by simp)) fun _ scope le hs => ?_
    have hunits := Value.AllWithin.cons (h.mono le).quotedIfNeeded .nil
    refine T.bind (T.newFeed hs hunits) fun _ feed _ hf => ?_
    refine T.bind T.freshIdentity fun _ _ le' _ => T.ret ?_
    exact Value.within_varargs.2 ⟨le' hf, by simp⟩
  · exact T.ret h

theorem fillLeft? {left : Option Value} (h : c.Within R) (hl : Value.MaybeWithin R left) :
    T.Holds R CallState.Within (Evaluator.fillLeft? c left) (Evaluator.fillLeft? c left) := by
  cases left with
  | none => exact T.ret h
  | some left =>
    simp only [Evaluator.fillLeft?, Evaluator.fillLeft]
    split
    · exact T.failWith
    · split
      · exact T.ret h
      · refine T.bind (T.leftArgument (hl left rfl)) fun _ v le hv => ?_
        refine T.bind T.check fun _ _ le' _ => T.ret ?_
        exact (h.mono (le.trans le')).fill _ (hv.mono le')

theorem noteRefinement {index : Nat} (h : c.Within R) :
    T.Holds R CallState.Within (Eval.ofExcept (Evaluator.noteRefinement c p index))
      (Eval.ofExcept (Evaluator.noteRefinement c p index)) := by
  refine T.ofExcept fun c' hc' => ?_
  unfold Evaluator.noteRefinement at hc'
  have hm : CallState.Within R { c with requests := Evaluator.matchRequest p.name c.requests } :=
    ⟨h.action, h.slots⟩
  split at hc'
  · cases hc'
  · dsimp only at hc'
    split at hc'
    · have hf := hm.fill index (v := .refinement p.name) Value.within_refinement
      cases hc'
      split
      · exact hf
      · exact ⟨hf.action, hf.slots⟩
    · cases hc'
      exact (hm.fill index Value.within_null).fillNulls _

theorem revokeIfNull {r : Nat} {arguments : List Nat} (h : c.Within R) :
    T.Holds R CallState.Within (Evaluator.revokeIfNull c r arguments)
      (Evaluator.revokeIfNull c r arguments) := by
  unfold Evaluator.revokeIfNull
  split
  · exact T.ret h
  · dsimp only
    split
    · exact T.failWith
    · split
      · exact T.bind T.note fun _ _ le _ => T.ret ((h.mono le).refill r Value.within_null)
      · exact T.ret h

theorem returnAction {id : FrameId} :
    T.Holds R Value.Within (Evaluator.returnAction id) (Evaluator.returnAction id) := by
  refine T.bind T.freshIdentity fun _ _ _ _ => T.bind T.freshIdentity fun _ _ _ _ => T.ret ?_
  exact .of_nil rfl

variable (N : T.Nested ev ev')
include N

theorem gatherEvaluated (hf : .feed feed ∈ R) :
    T.Holds R Value.MaybeWithin (ev.gatherEvaluated feed c p) (ev'.gatherEvaluated feed c p) := by
  refine T.bind (T.onlyIf fun _ => T.setNoLookahead) fun _ _ le _ => ?_
  refine T.bind (N.evalExpression (le hf)) fun _ v? _ hv => ?_
  cases v? with
  | some v => exact T.ret hv
  | none =>
    dsimp only
    split
    · exact T.ret .none
    · exact T.fail

theorem gather {index : Nat} (hf : .feed feed ∈ R) (h : c.Within R) :
    T.Holds R (fun S r => Value.MaybeWithin S r.1 ∧ r.2.Within S) (ev.gather feed c p index)
      (ev'.gather feed c p index) := by
  refine T.bind (T.atArgumentEnd hf) fun R₁ ended le₁ _ => ?_
  split
  · split
    · exact T.ret ⟨.none, h.mono le₁⟩
    · exact T.fail
  · refine T.bind T.deferring fun R₂ deferring le₂ _ => ?_
    have hf₂ := le₂ (le₁ hf)
    split
    · exact T.bind (T.peek hf₂) fun _ _ _ _ => T.fail
    · refine T.bind (T.peek hf₂) fun R₃ unit? le₃ hu => ?_
      have le := le₁.trans (le₂.trans le₃)
      have hc := h.mono le
      split
      · exact T.fail
      · have hunit := hu _ rfl
        split
        · split
          · exact T.ret ⟨.none, hc⟩
          · refine T.bind T.advance fun _ _ le' _ => T.ret ?_
            exact ⟨.some (hunit.mono le'), hc.mono le'⟩
        · refine T.bind T.advance fun _ _ le' _ => ?_
          refine T.bind (T.softEscape N (le' (le hf)) (hunit.mono le')) fun _ _ le'' hv => T.ret ?_
          exact ⟨.some (hv.getD Value.within_null), hc.mono (le'.trans le'')⟩
        · split
          · exact T.fail
          · refine T.bind T.advance fun _ _ le' _ => ?_
            refine T.bind (T.evalSilenced N (le' (le hf)) (Value.Within.mono hunit le'))
              fun _ _ le'' hv => T.ret ?_
            have hc' := hc.mono (le'.trans le'')
            exact ⟨.some (hv.getD Value.within_null), hc'.action, hc'.slots⟩
        · exact T.bind (T.gatherEvaluated N (le hf)) fun _ _ le' hv => T.ret ⟨hv, hc.mono le'⟩

theorem fillParam {index : Nat} (hf : .feed frame.feed ∈ R) (h : c.Within R) :
    T.Holds R CallState.Within (ev.fillParam frame c p index) (ev'.fillParam frame c p index) := by
  unfold Evaluator.fillParam
  split
  · rename_i preset hpreset
    have hp := h.action.preset index preset hpreset
    exact T.bind T.check fun _ _ le _ => T.ret ((h.mono le).fill index (hp.mono le))
  · split
    · exact T.ret (h.fill index Value.within_void)
    · exact T.bind T.returnAction fun _ _ le hv => T.ret ((h.mono le).fill index hv)
    · refine T.bind (T.reifyCall h) fun _ reified le hr => T.bind T.freshIdentity fun _ _ le' _ => ?_
      refine T.ret ((h.mono (le.trans le')).fill index (Value.within_varargs.2 ⟨le' (le hf), ?_⟩))
      rintro f ⟨⟩
      exact le' hr
    · exact T.failWith
    · refine T.bind (T.gather N hf h) fun _ (taken, c') _ ⟨ht, hc⟩ => ?_
      dsimp only at ht hc ⊢
      cases taken with
      | none => exact T.ret (hc.fill index Value.within_null)
      | some v =>
        refine T.bind T.check fun _ _ le _ => T.ret ?_
        exact (hc.mono le).fill index ((ht v rfl).mono le)

theorem mainPass {entries : List (Param × Nat)} (hf : .feed frame.feed ∈ R) (h : c.Within R) :
    T.Holds R CallState.Within (ev.mainPass frame entries c) (ev'.mainPass frame entries c) := by
  induction entries generalizing c R with
  | nil => exact T.ret h
  | cons entry rest ih =>
    unfold Evaluator.mainPass
    split
    · exact ih hf h
    · split
      · exact T.bind (T.noteRefinement h) fun _ c₁ le h₁ => ih (le hf) h₁
      · exact T.bind (T.fillParam N hf h) fun _ c₁ le h₁ => ih (le hf) h₁

theorem fillAll {indices : List Nat} (hf : .feed frame.feed ∈ R) (h : c.Within R) :
    T.Holds R CallState.Within (ev.fillAll frame indices c) (ev'.fillAll frame indices c) := by
  induction indices generalizing c R with
  | nil => exact T.ret h
  | cons index rest ih =>
    unfold Evaluator.fillAll
    split
    · exact ih hf h
    · split
      · exact ih hf h
      · exact T.bind (T.fillParam N hf h) fun _ c₁ le h₁ => ih (le hf) h₁

theorem pickupPass {pending : List Nat} (hf : .feed frame.feed ∈ R) (h : c.Within R) :
    T.Holds R CallState.Within (ev.pickupPass frame pending c)
      (ev'.pickupPass frame pending c) := by
  induction pending generalizing c R with
  | nil => exact T.ret h
  | cons r rest ih =>
    refine T.bind (T.fillAll N hf h) fun _ c₁ le₁ h₁ => ?_
    exact T.bind (T.revokeIfNull h₁) fun _ c₂ le₂ h₂ => ih (le₂ (le₁ hf)) h₂

theorem fulfil {left : Option Value} (hf : .feed frame.feed ∈ R) (h : c.Within R)
    (hl : Value.MaybeWithin R left) :
    T.Holds R CallState.Within (ev.fulfil frame left c) (ev'.fulfil frame left c) := by
  refine T.bind (T.fillLeft? h hl) fun _ c₁ le₁ h₁ => ?_
  refine T.bind (T.mainPass N (le₁ hf) h₁) fun _ c₂ le₂ h₂ => T.bind T.check fun _ _ le₃ _ => ?_
  exact T.pickupPass N (le₃ (le₂ (le₁ hf))) (h₂.mono le₃)

end Tandem

end Homoicon
