import Homoicon.Evaluate.Step
import Homoicon.Proofs.Filling
import Homoicon.Proofs.Results

/-!
# Fulfilment

When all slots of a call are filled, each was filled exactly once, each holds a value that its
parameter allows, and each refinement is in use together with all of its arguments or not at all.
This is so however nested code is evaluated.
-/

namespace Homoicon

namespace Evaluator

variable {ev : Evaluator} {frame : Frame} {c : CallState} {p : Param}

/-! ### One argument -/

theorem gather_returns {feed : FeedId} {index : Nat} :
    (ev.gather feed c p index).Returns fun (taken, c') =>
      (∃ modalOn, c' = { c with modalOn }) ∧
        (taken = none → p.types.endable = true ∨ p.role = .hardQuote ∧ p.types.skippable = true) := by
  have same : ∃ modalOn, c = { c with modalOn } := ⟨c.modalOn, rfl⟩
  unfold gather
  refine .after fun atEnd => ?_
  split
  · split
    · rename_i habsent
      exact .pure ⟨same, fun _ => by simpa using habsent⟩
    · exact .fail
  · refine .after fun deferring => ?_
    split
    · exact .after fun _ => .fail
    · refine .after fun unit? => ?_
      split
      · exact .fail
      · split
        · split
          · rename_i hskip
            exact .pure ⟨same, fun _ => .inr ⟨‹_›, (Bool.and_eq_true_iff.1 hskip).1⟩⟩
          · exact .after fun _ => .pure ⟨same, by simp⟩
        · exact .after fun _ => .after fun _ => .pure ⟨same, by simp⟩
        · split
          · exact .fail
          · exact .after fun _ => .after fun _ => .pure ⟨⟨_, rfl⟩, by simp⟩
        · refine .bind (P := fun v => v = none → p.types.endable = true) ?_ fun v hv =>
            .pure ⟨same, fun h => .inl (hv h)⟩
          unfold gatherEvaluated
          refine .after fun _ => .after fun taken => ?_
          split
          · exact .pure (by simp)
          · split
            · exact .pure fun _ => ‹_›
            · exact .fail

theorem fillParam_returns {index : Nat} (hp : c.action.params[index]? = some p)
    (hr : p.role ≠ .refinement) (hi : index < c.slots.length) :
    (ev.fillParam frame c p index).Returns (c.Extends c.action.Allows [index] ·) := by
  have allows : ∀ {v : Value}, p.Holds v → c.action.Allows index v := by
    intro v hv q hq
    rw [hp] at hq
    cases hq
    exact hv
  have free : ∀ {v : Value}, p.role = .localWord ∨ p.role = .returns ∨ (∃ pull, p.role = .variadic pull) →
      p.Holds v := by
    rintro v (h | h | ⟨_, h⟩) <;> simp [Param.Holds, h]
  unfold fillParam
  split
  · rename_i preset _
    refine .bind (P := fun _ => p.Holds preset) (.ofExcept fun _ h => ?_) fun _ h =>
      .pure (.fill hi (allows h))
    exact .of_check hr .inr h
  · split
    · exact .pure (.fill hi (allows (free (.inl ‹_›))))
    · exact .after fun _ => .pure (.fill hi (allows (free (.inr (.inl ‹_›)))))
    · exact .after fun _ => .after fun _ => .pure (.fill hi (allows (free (.inr (.inr ⟨_, ‹_›⟩)))))
    · exact .fail
    · refine .bind gather_returns fun r hr' => ?_
      obtain ⟨taken, c'⟩ := r
      obtain ⟨⟨modalOn, rfl⟩, habsent⟩ := hr'
      have ext : ∀ {v : Value}, p.Holds v →
          c.Extends c.action.Allows [index] ({ c with modalOn }.fill index v) := fun hv =>
        (CallState.Extends.modalOn c modalOn).trans (.fill hi (allows hv)) (by simp)
      cases taken with
      | none => exact .pure (ext (.of_absent ((habsent rfl).imp_right .inl)))
      | some v =>
        refine .bind (P := fun _ => p.Holds v) (.ofExcept fun _ h => ?_) fun _ h => .pure (ext h)
        exact .of_check hr .inr h

theorem fillLeft_returns {left : Value} {index : Nat} (hfirst : c.action.firstArgument? = some index)
    (hp : c.action.params[index]? = some p) (hr : p.role ≠ .refinement)
    (hi : index < c.slots.length) :
    (fillLeft c left).Returns (c.Extends c.action.Allows [index] ·) := by
  unfold fillLeft
  simp only [hfirst, hp]
  refine .after fun v => ?_
  refine .bind (P := fun _ => p.Holds v) (.ofExcept fun _ h => ?_) fun _ h => .pure (.fill hi ?_)
  · exact .of_check hr .inl h
  · intro q hq
    rw [hp] at hq
    cases hq
    exact h

theorem fillAll_returns {indices : List Nat} (hnodup : indices.Nodup)
    (hparam : ∀ i ∈ indices, ∃ p, c.action.params[i]? = some p ∧ p.role ≠ .refinement)
    (hlength : c.slots.length = c.action.params.length) (hopen : ∀ i ∈ indices, i ∉ c.filled) :
    (ev.fillAll frame indices c).Returns (c.Extends c.action.Allows indices ·) := by
  induction indices generalizing c with
  | nil => exact .pure (.refl c)
  | cons index rest ih =>
    obtain ⟨p, hp, hr⟩ := hparam index (by simp)
    have hi : index < c.slots.length := hlength ▸ (List.getElem?_eq_some_iff.1 hp).1
    have hempty : c.isFilled index = false := by simpa [CallState.isFilled] using hopen index (by simp)
    obtain ⟨hnot, hrest⟩ := List.nodup_cons.1 hnodup
    simp only [fillAll, hempty, hp]
    refine .bind (fillParam_returns hp hr hi) fun c' h => ?_
    refine (ih hrest ?_ ?_ ?_).mono fun c'' h' => h.trans (h.action ▸ h') (by simpa using hnot)
    · intro i hmem
      rw [h.action]
      exact hparam i (by simp [hmem])
    · rw [h.length, h.action, hlength]
    · intro i hmem hf
      rcases h.mem_filled.1 hf with hf | hf
      · obtain rfl : i = index := by simpa using hf
        exact hnot hmem
      · exact hopen i (by simp [hmem]) hf

/-! ### One refinement -/

/-- A refinement is used, and then its arguments are still to come, or it is not, and then its
arguments are null like itself. -/
theorem noteRefinement_eq_ok {c c' : CallState} {p : Param} {k : Nat}
    (h : noteRefinement c p k = .ok c') (hk : k < c.slots.length)
    (hnodup : (k :: c.action.refinementArguments k).Nodup)
    (hi : ∀ i ∈ c.action.refinementArguments k, i < c.slots.length) :
    { c with pickups := c'.pickups }.Extends (fun _ v => v = Value.refinement p.name) [k] c' ∧
        c'.pickups = c.pickups ++ (if (c.action.refinementArguments k).isEmpty then [] else [k]) ∨
      c.Extends (fun _ v => v = Value.null) (k :: c.action.refinementArguments k) c' := by
  unfold noteRefinement at h
  simp only at h
  split at h
  · cases h
  · split at h
    · left
      split at h
      · rename_i hargs
        cases h
        refine ⟨?_, by simp [hargs, CallState.fill]⟩
        exact (CallState.Extends.requests c _).trans (.fill hk rfl) (by simp)
      · rename_i hargs
        cases h
        refine ⟨?_, by simp [hargs, CallState.fill]⟩
        exact (CallState.Extends.requests { c with pickups := c.pickups ++ [k] } _).trans
          (.fill hk rfl) (by simp)
    · right
      cases h
      exact (CallState.Extends.requests c _).trans
        (CallState.extends_nulls hnodup (by simpa [hk] using hi)) (by simp)

variable {ev : Evaluator} {frame : Frame} {a : Action} {left : Option Nat}

theorem noteRefinement_filling {k : Nat} {p : Param} {c c' : CallState} (hw : WellOwned a.params)
    (hp : a.params[k]? = some p) (hr : p.role = .refinement) (hk : k ∉ c.filled)
    (h : c.Filling a left k c.pickups) (hc : noteRefinement c p k = .ok c') :
    c'.Filling a left (k + 1) c'.pickups := by
  have hlt := (List.getElem?_eq_some_iff.1 hp).1
  obtain ⟨hdup, hopen⟩ := h.nodup_arguments hw hp hk
  obtain rfl := h.slots.action
  rw [← h.slots.length] at hopen hlt
  rcases noteRefinement_eq_ok hc hlt hdup fun i hi => (hopen i (by simp [hi])).1 with
    ⟨he, hpick⟩ | he
  · refine (h.withPickups c'.pickups).takeUsed hw hp hk hr he ?_
    split at hpick
    · exact .inl ⟨List.isEmpty_iff.1 ‹_›, by simpa using hpick⟩
    · exact .inr hpick
  · rw [he.pickups]
    exact h.takeUnused hw hp hk hr he

/-- The main pass passes over no refinement: neither the left operand's parameter nor one with an
owner is a refinement. -/
theorem not_refinement_of_skip {k : Nat} {p : Param} {c : CallState} {pending : List Nat}
    (hw : WellOwned a.params)
    (hleft : ∀ i p, left = some i → a.params[i]? = some p → p.role ≠ .refinement)
    (h : c.Filling a left k pending) (hp : a.params[k]? = some p)
    (hskip : k ∈ c.filled ∨ p.owner.isSome = true) : p.role ≠ .refinement := by
  intro hr
  have hfree := hw.refinement_free _ _ hp hr
  have hf := hskip.resolve_right (by simp [hfree])
  have hclosed := ((h.slots.filled k).1 hf).2
  rw [isOpen_free hp hfree] at hclosed
  exact hleft _ _ (Classical.byContradiction fun hne => hclosed ⟨Nat.le_refl _, hne⟩) hp hr

theorem entry_of_drop {k : Nat} {p : Param} {index : Nat} {rest : List (Param × Nat)}
    (h : a.params.zipIdx.drop k = (p, index) :: rest) :
    index = k ∧ a.params[k]? = some p ∧ a.params.zipIdx.drop (k + 1) = rest := by
  have hhead : a.params.zipIdx[k]? = some (p, index) := by
    rw [← Nat.add_zero k, ← List.getElem?_drop, h, List.getElem?_cons_zero]
  rw [List.getElem?_zipIdx, Option.map_eq_some_iff] at hhead
  obtain ⟨q, hq, he⟩ := hhead
  simp only [Nat.zero_add, Prod.mk.injEq] at he
  exact ⟨he.2.symm, he.1 ▸ hq, by rw [← List.tail_drop, h, List.tail_cons]⟩

/-- The main pass closes every slot but those of the arguments that are picked up. -/
theorem mainPass_returns (hw : WellOwned a.params)
    (hleft : ∀ i p, left = some i → a.params[i]? = some p → p.role ≠ .refinement)
    {k : Nat} (hk : k ≤ a.params.length) {entries : List (Param × Nat)}
    (hentries : a.params.zipIdx.drop k = entries) {c : CallState}
    (h : c.Filling a left k c.pickups) :
    (ev.mainPass frame entries c).Returns fun c' => c'.Filling a left a.params.length c'.pickups := by
  induction entries generalizing k c with
  | nil =>
    have hend : a.params.length ≤ k := by simpa using hentries
    obtain rfl : k = a.params.length := by omega
    exact .pure h
  | cons entry rest ih =>
    obtain ⟨p, index⟩ := entry
    obtain ⟨rfl, hp, hrest⟩ := entry_of_drop hentries
    have hlt := (List.getElem?_eq_some_iff.1 hp).1
    unfold mainPass
    split
    · rename_i hskip
      rw [Bool.or_eq_true, CallState.isFilled, List.contains_iff_mem] at hskip
      have hr := not_refinement_of_skip hw hleft h hp hskip
      exact ih hlt hrest (h.skip hw hp hr hskip)
    · rename_i hskip
      rw [Bool.or_eq_true, not_or, CallState.isFilled, List.contains_iff_mem] at hskip
      obtain ⟨hf, howner⟩ := hskip
      split
      · rename_i hr
        refine .bind (.ofExcept fun c' hc => hc) fun c' hc => ih hlt hrest ?_
        exact noteRefinement_filling hw hp (eq_of_beq hr) hf h hc
      · rename_i hr
        have hr : p.role ≠ .refinement := fun e => hr (by simp [e])
        refine .bind (fillParam_returns (h.slots.action ▸ hp) hr (h.slots.length ▸ hlt)) fun c' he =>
          ih hlt hrest ?_
        rw [he.pickups]
        exact h.takeFree hw hp hr (by simpa using howner) hf (h.slots.action ▸ he)

theorem revokeIfNull_returns {c : CallState} {r : Nat} {arguments : List Nat} :
    (revokeIfNull c r arguments).Returns fun c' =>
      (∀ i ∈ arguments, c.slot i ≠ .null) ∧ c' = c ∨
        (∀ i ∈ arguments, c.slot i = .null) ∧ c' = c.refill r .null := by
  unfold revokeIfNull
  split
  · exact .pure (.inl ⟨by simp, rfl⟩)
  · rename_i first rest
    simp only
    split
    · exact .fail
    · rename_i hsame
      have hsame : ∀ i ∈ first :: rest, (c.slot i).isNull = (c.slot first).isNull := by
        simpa using hsame
      split
      · rename_i hnull
        refine .after fun _ => .pure (.inr ⟨fun i hi => ?_, rfl⟩)
        exact Value.isNull_iff.1 ((hsame i hi).trans hnull)
      · rename_i hnull
        refine .pure (.inl ⟨fun i hi h => hnull ?_, rfl⟩)
        rw [← hsame i hi]
        exact Value.isNull_iff.2 h

theorem pickupPass_returns (hw : WellOwned a.params) {pending : List Nat} {c : CallState}
    (h : c.Filling a left a.params.length pending) :
    (ev.pickupPass frame pending c).Returns fun c' => c'.Filling a left a.params.length [] := by
  induction pending generalizing c with
  | nil => exact .pure h
  | cons r rest ih =>
    unfold pickupPass
    simp only
    have ha := h.slots.action
    have hlength := h.slots.length
    subst ha
    refine .bind (fillAll_returns (c.action.nodup_refinementArguments r) ?_ hlength ?_) fun c₁ h₁ => ?_
    · intro i hi
      obtain ⟨q, hq, howner⟩ := Action.mem_refinementArguments.1 hi
      refine ⟨q, hq, fun hr => ?_⟩
      rw [hw.refinement_free i q hq hr] at howner
      cases howner
    · exact fun i hi => (h.isOpen_pending hi).2.2
    · exact .bind revokeIfNull_returns fun c₂ h₂ => ih (h.pickUp hw h₁ h₂)

theorem fillLeft?_returns {p : PendingCall} (hw : WellOwned p.action.params)
    (hfirst : p.left.isSome = true → ∀ i q, p.action.firstArgument? = some i →
      p.action.params[i]? = some q → q.role ≠ .refinement) :
    (fillLeft? (CallState.start p) p.left).Returns fun c => c.pickups = [] ∧
      ∃ left, (∀ i q, left = some i → p.action.params[i]? = some q → q.role ≠ .refinement) ∧
        c.Filling p.action left 0 [] := by
  have hstart := CallState.Filling.start p
  cases hl : p.left with
  | none => exact .pure ⟨rfl, none, by simp, hstart⟩
  | some v =>
    cases hi : p.action.firstArgument? with
    | none =>
      have hnone : (CallState.start p).action.firstArgument? = none := hi
      unfold fillLeft? fillLeft
      simp only [hnone]
      exact .fail
    | some i =>
      obtain ⟨hlt, -⟩ := List.findIdx?_eq_some_iff_getElem.1 hi
      obtain ⟨q, hq⟩ : ∃ q, p.action.params[i]? = some q := ⟨_, List.getElem?_eq_getElem hlt⟩
      have hr := hfirst (by simp [hl]) i q hi hq
      refine (fillLeft_returns hi hq hr (by simpa [CallState.start] using hlt)).mono fun c he => ?_
      refine ⟨he.pickups, some i, ?_, ?_⟩
      · rintro _ q' ⟨⟩ hq'
        rw [hq] at hq'
        cases hq'
        exact hr
      · exact hstart.takeLeft hw hq (Action.firstArgument?_free hw hi hq) he

theorem fulfil_owned {ev : Evaluator} {frame : Frame} {p : PendingCall}
    (hw : WellOwned p.action.params)
    (hfirst : p.left.isSome = true → ∀ i q, p.action.firstArgument? = some i →
      p.action.params[i]? = some q → q.role ≠ .refinement) :
    (ev.fulfil frame p.left (CallState.start p)).Returns fun c => c.action = p.action ∧ c.Fulfilled := by
  refine .bind (fillLeft?_returns hw hfirst) fun c₁ ⟨hpick, left, hleft, h₁⟩ => ?_
  rw [← hpick] at h₁
  rw [h₁.slots.action]
  refine .bind (mainPass_returns hw hleft (Nat.zero_le _) rfl h₁) fun c₂ h₂ => ?_
  refine .after fun _ => (pickupPass_returns hw h₂).mono fun c₃ h₃ => ?_
  exact ⟨h₃.slots.action, h₃.fulfilled hw⟩

theorem fulfil_returns {ev : Evaluator} {frame : Frame} {p : PendingCall} (made : p.action.Made)
    (enfixed : p.left.isSome = true → p.action.enfixed = true) :
    (ev.fulfil frame p.left (CallState.start p)).Returns fun c => c.action = p.action ∧ c.Fulfilled := by
  refine fulfil_owned made.wellOwned fun hl i q hi hq => ?_
  obtain ⟨j, r, hj, hr, hrole⟩ := made.firstArgument (enfixed hl)
  rw [hi] at hj
  cases hj
  rw [hq] at hr
  cases hr
  exact hrole

/-- Filling the slots of a call leaves it fulfilled, however nested code is evaluated. -/
theorem fulfil_fulfilled (ev : Evaluator) (frame : Frame) (p : PendingCall) (m m' : Machine)
    (c : CallState) (made : p.action.Made) (enfixed : p.left.isSome = true → p.action.enfixed = true)
    (h : ev.fulfil frame p.left (CallState.start p) m = (.done c, m')) :
    c.action = p.action ∧ c.Fulfilled :=
  fulfil_returns made enfixed m c m' h

def refinedSpec : List Value :=
  [.word "x", .block [.word "integer!"], .refinement "r", .word "y", .block [.word "integer!"]]

def refinedAction : Action :=
  { label := none
    params := (Spec.read refinedSpec).toOption.elim [] (·.params)
    signature := 0
    dispatcher := .returnTo 0
    exemplar := none
    enfixed := false
    deferral := .none
    description := none }

theorem fulfil_fulfilled_infix : ∃ c : CallState,
    c.slots.map Value.mold = ["1", "/r", "2"] ∧ c.Fulfilled := by
  let p : PendingCall :=
    { action := { refinedAction with enfixed := true }
      label := "f"
      left := some (.integer 1)
      requests := ["r"] }
  let m : Machine := { Machine.new {} with feeds := #[{ units := [.integer 2], scope := 0 }] }
  let x := (Evaluator.ofConfig {}).fulfil { id := 0, feed := 0 } p.left (CallState.start p)
  have hx : (x m).1.result?.map (fun c => c.slots.map Value.mold) = some ["1", "/r", "2"] := by
    decide +kernel
  obtain ⟨c, hc, hslots⟩ := Option.map_eq_some_iff.1 hx
  have read : Spec.read refinedSpec = .ok { params := refinedAction.params } := rfl
  have enfix : refinedAction.enfixWith .none = .ok p.action := rfl
  have made : p.action.Made := .enfixed (.read read (.inl rfl) rfl rfl) enfix
  exact ⟨c, hslots, (fulfil_fulfilled _ _ p m _ c made (fun _ => rfl) (Eval.run_of_result? hc)).2⟩

end Evaluator

end Homoicon
