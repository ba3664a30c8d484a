import Homoicon.Evaluate.Invoke
import Homoicon.Proofs.Renumbering.Paths

/-!
# Fulfilment under a renumbering
-/

namespace Homoicon

variable {ρ : Renumbering}

structure CallState.Matches (ρ : Renumbering) (c c' : CallState) : Prop where
  action : c.action.Matches ρ c'.action
  label : c'.label = c.label
  slots : Value.AllMatch ρ c.slots c'.slots
  filled : c'.filled = c.filled
  requests : c'.requests = c.requests
  pickups : c'.pickups = c.pickups
  modalOn : c'.modalOn = c.modalOn

def Renumbering.callFrame (ρ : Renumbering) (frame : Frame) : Frame :=
  { frame with id := ρ.frame frame.id }

@[simp] theorem Renumbering.feed_callFrame (ρ : Renumbering) (frame : Frame) :
    (ρ.callFrame frame).feed = frame.feed := rfl

@[simp] theorem Renumbering.id_callFrame (ρ : Renumbering) (frame : Frame) :
    (ρ.callFrame frame).id = ρ.frame frame.id := rfl

/-! ### Checks -/

namespace ExceptRel

variable {ε α β : Type} {E : ε → ε → Prop} {P : α → α → Prop} {Q : β → β → Prop}

theorem bind {r r' : Except ε α} {f f' : α → Except ε β} (h : ExceptRel E P r r')
    (hf : ∀ a a', P a a' → ExceptRel E Q (f a) (f' a')) :
    ExceptRel E Q (r >>= f) (r' >>= f') := by
  cases h with
  | ok h => exact hf _ _ h
  | error h => exact .error h

theorem refl (hE : ∀ e, E e e) {P : α → α → Prop} (hP : ∀ a, P a a) (r : Except ε α) :
    ExceptRel E P r r := by
  cases r with
  | ok a => exact .ok (hP a)
  | error e => exact .error (hE e)

end ExceptRel

abbrev Renumbering.Checks (ρ : Renumbering) : Except Fault Unit → Except Fault Unit → Prop :=
  ExceptRel (Fault.Matches ρ) fun _ _ => True

theorem Renumbering.Checks.same (r : Except Fault Unit) : ρ.Checks r r :=
  .refl .refl (fun _ => trivial) r

section

variable {label : String} {p : Param} {v v' : Value}

theorem checkType_matches (h : v.Matches ρ v') :
    checkType label p v' = checkType label p v := by
  unfold checkType
  rw [h.accepts, h.kind]

theorem checkUnless_matches {excused : Bool} (h : v.Matches ρ v') :
    checkUnless excused label p v' = checkUnless excused label p v := by
  unfold checkUnless
  rw [h.isNull, checkType_matches h]

end

namespace CallState.Matches

variable {c c' : CallState} (h : c.Matches ρ c')
include h

theorem slot (i : Nat) : (c.slot i).Matches ρ (c'.slot i) := rel_getD (rel_getElem? h.slots i) .void

theorem isFilled (i : Nat) : c'.isFilled i = c.isFilled i := by
  rw [CallState.isFilled, CallState.isFilled, h.filled]

theorem fill (i : Nat) {v v' : Value} (hv : v.Matches ρ v') :
    (c.fill i v).Matches ρ (c'.fill i v') :=
  { h with slots := rel_set h.slots i hv, filled := congrArg (i :: ·) h.filled }

theorem refill (i : Nat) {v v' : Value} (hv : v.Matches ρ v') :
    (c.refill i v).Matches ρ (c'.refill i v') :=
  { h with slots := rel_set h.slots i hv }

theorem fillNulls (indices : List Nat) :
    (indices.foldl (fun c i => c.fill i .null) c).Matches ρ
      (indices.foldl (fun c i => c.fill i .null) c') := by
  induction indices generalizing c c' with
  | nil => exact h
  | cons i rest ih => exact ih (h.fill i .null)

theorem arguments : Bindings.Matches ρ c.arguments c'.arguments := by
  unfold CallState.arguments
  rw [h.action.params]
  refine List.rel_filterMap ?_ (rel_zipIdx (rel_zip h.slots) 0)
  rintro ⟨⟨p, v⟩, i⟩ ⟨⟨p', v'⟩, i'⟩ ⟨⟨hp, hv⟩, hi⟩
  cases hp
  cases hi
  dsimp only
  rw [h.isFilled]
  split
  · exact .some ⟨rfl, hv⟩
  · exact .none

theorem named? (name : String) : Value.MaybeMatch ρ (c.named? name) (c'.named? name) := by
  unfold CallState.named?
  rw [h.action.findParam?]
  exact rel_map (rel_same (fun _ => rfl) _) fun i _ hi => hi ▸ h.slot i

theorem uses (name : String) : c'.uses name = c.uses name := by
  unfold CallState.uses
  rw [h.action.findRefinement?]
  cases c.action.findRefinement? name with
  | none => rfl
  | some i => exact congrArg (!·) (h.slot i).isNull

theorem mismatch (i : Nat) : c'.mismatch i = c.mismatch i := by
  unfold CallState.mismatch
  rw [h.label, h.action.params, (h.slot i).kind]

theorem checkSlot (p : Param) (i : Nat) : c'.checkSlot p i = c.checkSlot p i := by
  unfold CallState.checkSlot
  rw [h.label]
  simp only [checkUnless_matches (h.slot i)]

theorem checkAll : c'.checkAll = c.checkAll := by
  unfold CallState.checkAll
  rw [h.action.params]
  simp only [h.checkSlot]

theorem isRequested (p : Param) : Evaluator.isRequested c' p = Evaluator.isRequested c p := by
  rw [Evaluator.isRequested, Evaluator.isRequested, h.requests]

theorem isInUse (p : Param) (i : Nat) : Evaluator.isInUse c' p i = Evaluator.isInUse c p i := by
  have hpreset := h.action.preset? i
  unfold Evaluator.isInUse
  rw [h.isRequested, h.modalOn]
  generalize c.action.preset? i = o, c'.action.preset? i = o' at hpreset
  cases hpreset with
  | none => rfl
  | some hv => exact congrArg _ hv.isTruthy

end CallState.Matches

theorem CallState.Matches.start {p p' : PendingCall} (h : p.Matches ρ p') :
    (CallState.start p).Matches ρ (CallState.start p') := by
  refine ⟨h.action, h.label, ?_, rfl, ?_, rfl, rfl⟩
  · rw [CallState.start, CallState.start, h.action.params]
    exact List.forall₂_same.2 fun v hv => by
      obtain ⟨_, -, rfl⟩ := List.mem_map.1 hv
      exact .void
  · rw [CallState.start, CallState.start, h.requests]

/-! ### Slots -/

namespace Renumbering

variable {ev : Evaluator} {frame : Frame} {feed : FeedId} {c c' : CallState} {p : Param} {i : Nat}
  {v v' : Value}

theorem reifyCall {id : FrameId} (h : c.Matches ρ c') :
    ρ.Holds (fun f f' => f' = ρ.frameRef f) (reifyCall id c) (reifyCall (ρ.frame id) c') := by
  refine (Holds.reify h.arguments).bind fun _ _ _ => .ret ?_
  rw [h.label]
  rfl

theorem leftArgument {label : String} (h : v.Matches ρ v') :
    ρ.Holds (Value.Matches ρ) (Evaluator.leftArgument v p label)
      (Evaluator.leftArgument v' p label) := by
  unfold Evaluator.leftArgument
  split
  · refine Holds.newScope.bind fun s _ hs => ?_
    subst hs
    refine (Holds.newFeed (.cons h.quotedIfNeeded .nil)).bind fun f _ hf => ?_
    subst hf
    refine Holds.freshIdentity.bind fun id _ hid => ?_
    subst hid
    exact .ret (.varargs id _)
  · exact .ret h

theorem fillLeft? {left left' : Option Value} (h : c.Matches ρ c')
    (hl : Value.MaybeMatch ρ left left') :
    ρ.Holds (CallState.Matches ρ) (Evaluator.fillLeft? c left) (Evaluator.fillLeft? c' left') := by
  cases hl with
  | none => exact .ret h
  | some hl =>
    unfold Evaluator.fillLeft? Evaluator.fillLeft
    dsimp only
    rw [h.action.firstArgument?, h.action.params, h.label]
    split
    · exact .failWith (.refl _)
    · split
      · exact .ret h
      · refine (leftArgument hl).bind fun w w' hw => ?_
        rw [checkUnless_matches hw]
        exact (Holds.ofExcept (Checks.same _)).bind fun _ _ _ => .ret (h.fill _ hw)

theorem noteRefinement (h : c.Matches ρ c') :
    ExceptRel (Fault.Matches ρ) (CallState.Matches ρ) (Evaluator.noteRefinement c p i)
      (Evaluator.noteRefinement c' p i) := by
  have hpreset := h.action.preset? i
  have hm : CallState.Matches ρ { c with requests := Evaluator.matchRequest p.name c.requests }
      { c' with requests := Evaluator.matchRequest p.name c'.requests } :=
    { h with requests := by rw [h.requests] }
  have hout : ((c'.action.preset? i).any fun v => !v.isTruthy) =
      (c.action.preset? i).any fun v => !v.isTruthy := by
    generalize c.action.preset? i = o, c'.action.preset? i = o' at hpreset
    cases hpreset with
    | none => rfl
    | some hv => exact congrArg (!·) hv.isTruthy
  unfold Evaluator.noteRefinement
  rw [h.isRequested, hout]
  split
  · rw [h.label]
    exact .error (.refl _)
  · dsimp only
    rw [h.action.refinementArguments, h.isInUse]
    split
    · refine .ok ?_
      have hf := hm.fill i (.refinement p.name)
      split
      · exact hf
      · exact { hf with pickups := congrArg (· ++ [i]) hf.pickups }
    · exact .ok ((hm.fill i .null).fillNulls _)

theorem checkRequests (h : c.Matches ρ c') :
    Evaluator.checkRequests c' = Evaluator.checkRequests c := by
  rw [Evaluator.checkRequests, Evaluator.checkRequests, h.requests, h.label]

theorem revokeIfNull {r : Nat} {indices : List Nat} (h : c.Matches ρ c') :
    ρ.Holds (CallState.Matches ρ) (Evaluator.revokeIfNull c r indices)
      (Evaluator.revokeIfNull c' r indices) := by
  unfold Evaluator.revokeIfNull
  cases indices with
  | nil => exact .ret h
  | cons first rest =>
    have hnull : ∀ j, (c'.slot j).isNull = (c.slot j).isNull := fun j => (h.slot j).isNull
    dsimp only
    simp only [hnull, h.action.params, h.label]
    split
    · exact .failWith (.refl _)
    · split
      · exact Holds.note.bind fun _ _ _ => .ret (h.refill r .null)
      · exact .ret h

theorem returnAction {id : FrameId} :
    ρ.Holds (Value.Matches ρ) (Evaluator.returnAction id)
      (Evaluator.returnAction (ρ.frame id)) := by
  refine Holds.freshIdentity.bind fun signature _ hs => ?_
  subst hs
  refine Holds.freshIdentity.bind fun identity _ hi => ?_
  subst hi
  exact .ret (.action _ (.mk _ _ _ (.returnTo id) .none _ _ _))

variable (N : ρ.Nested ev)
include N

theorem gatherEvaluated (h : c.Matches ρ c') :
    ρ.Holds (Value.MaybeMatch ρ) (ev.gatherEvaluated feed c p) (ev.gatherEvaluated feed c' p) := by
  unfold Evaluator.gatherEvaluated
  rw [h.action.enfixed, h.label]
  refine (Holds.onlyIf fun _ => Holds.setNoLookahead).bind fun _ _ _ => ?_
  refine N.evalExpression.bind fun o o' ho => ?_
  cases ho with
  | some hv => exact .ret (.some hv)
  | none =>
    dsimp only
    split
    · exact .ret .none
    · exact .fail (.refl _)

theorem gather (h : c.Matches ρ c') :
    ρ.Holds (fun r r' => Value.MaybeMatch ρ r.1 r'.1 ∧ r.2.Matches ρ r'.2) (ev.gather feed c p i)
      (ev.gather feed c' p i) := by
  have modalFault : Evaluator.modalFault c' p = Evaluator.modalFault c p := by
    rw [Evaluator.modalFault, Evaluator.modalFault, h.label]
  unfold Evaluator.gather
  rw [modalFault, h.label, h.action.params]
  refine Holds.atArgumentEnd.bind fun ended _ he => ?_
  subst he
  split
  · split
    · exact .ret ⟨.none, h⟩
    · exact .fail (.refl _)
  · refine Holds.deferring.bind fun deferring _ hd => ?_
    subst hd
    split
    · refine Holds.peek.bind fun pending pending' hpending => .fail (.inCall (.of ?_) _)
      refine .append (.append (.refl _) ?_) (.refl _)
      exact rel_getD (rel_map hpending fun _ _ hv => hv.mold) (.refl _)
    · refine Holds.peek.bind fun o o' ho => ?_
      cases ho with
      | none => exact .fail (.refl _)
      | @some unit unit' hunit =>
        have evaluated : ρ.Holds (fun r r' => Value.MaybeMatch ρ r.1 r'.1 ∧ r.2.Matches ρ r'.2)
            (do let v ← ev.gatherEvaluated feed c p; return (v, c))
            (do let v ← ev.gatherEvaluated feed c' p; return (v, c')) :=
          (gatherEvaluated N h).bind fun _ _ hv => .ret ⟨hv, h⟩
        dsimp only
        cases hrole : p.role with
        | hardQuote =>
          dsimp only
          rw [hunit.accepts]
          split
          · exact .ret ⟨.none, h⟩
          · exact Holds.advance.bind fun _ _ _ => .ret ⟨.some hunit, h⟩
        | softQuote =>
          refine Holds.advance.bind fun _ _ _ => (softEscape N hunit).bind fun _ _ hv => ?_
          exact .ret ⟨.some (rel_getD hv .null), h⟩
        | modal =>
          cases hunit with
          | sym hpayload =>
            dsimp only
            split
            · exact .fail (.refl _)
            · refine Holds.advance.bind fun _ _ _ => ?_
              refine (evalSilenced N hpayload).bind fun _ _ hv => .ret ⟨.some (rel_getD hv .null), ?_⟩
              exact { h with label := rfl, modalOn := congrArg (· ++ [i + 1]) h.modalOn }
          | _ => exact evaluated
        | _ => exact evaluated

theorem fillGathered (h : c.Matches ρ c') :
    ρ.Holds (CallState.Matches ρ)
      (do
        let (taken, c) ← ev.gather frame.feed c p i
        match taken with
        | none => return c.fill i .null
        | some v =>
          Eval.ofExcept (checkUnless p.owner.isSome c.label p v)
          return c.fill i v)
      (do
        let (taken, c) ← ev.gather frame.feed c' p i
        match taken with
        | none => return c.fill i .null
        | some v =>
          Eval.ofExcept (checkUnless p.owner.isSome c.label p v)
          return c.fill i v) := by
  refine (gather N h).bind fun r r' hr => ?_
  obtain ⟨o, d⟩ := r
  obtain ⟨o', d'⟩ := r'
  obtain ⟨ho, hd⟩ : Value.MaybeMatch ρ o o' ∧ d.Matches ρ d' := hr
  cases ho with
  | none => exact .ret (hd.fill i .null)
  | some hv =>
    dsimp only
    rw [checkUnless_matches hv, hd.label]
    exact (Holds.ofExcept (Checks.same _)).bind fun _ _ _ => .ret (hd.fill i hv)

theorem fillParam (h : c.Matches ρ c') :
    ρ.Holds (CallState.Matches ρ) (ev.fillParam frame c p i)
      (ev.fillParam (ρ.callFrame frame) c' p i) := by
  have hpreset := h.action.preset? i
  unfold Evaluator.fillParam
  rw [h.label]
  generalize c.action.preset? i = o, c'.action.preset? i = o' at hpreset
  cases hpreset with
  | some hv =>
    dsimp only
    rw [checkUnless_matches hv]
    exact (Holds.ofExcept (Checks.same _)).bind fun _ _ _ => .ret (h.fill i hv)
  | none =>
    cases p.role with
    | localWord => exact .ret (h.fill i .void)
    | returns => exact returnAction.bind fun _ _ hv => .ret (h.fill i hv)
    | variadic pull =>
      refine (reifyCall h).bind fun f _ hf => ?_
      subst hf
      refine Holds.freshIdentity.bind fun id _ hid => ?_
      subst hid
      exact .ret (h.fill i (.varargs id _))
    | refinement => exact .failWith (.refl _)
    | _ => exact fillGathered N h

theorem mainPass {entries : List (Param × Nat)} (h : c.Matches ρ c') :
    ρ.Holds (CallState.Matches ρ) (ev.mainPass frame entries c)
      (ev.mainPass (ρ.callFrame frame) entries c') := by
  induction entries generalizing c c' with
  | nil => exact .ret h
  | cons entry rest ih =>
    obtain ⟨p, i⟩ := entry
    unfold Evaluator.mainPass
    rw [h.isFilled]
    split
    · exact ih h
    · split
      · exact (Holds.ofExcept (noteRefinement h)).bind fun _ _ hc => ih hc
      · exact (fillParam N h).bind fun _ _ hc => ih hc

theorem fillAll {indices : List Nat} (h : c.Matches ρ c') :
    ρ.Holds (CallState.Matches ρ) (ev.fillAll frame indices c)
      (ev.fillAll (ρ.callFrame frame) indices c') := by
  induction indices generalizing c c' with
  | nil => exact .ret h
  | cons i rest ih =>
    unfold Evaluator.fillAll
    rw [h.isFilled, h.action.params]
    split
    · exact ih h
    · split
      · exact ih h
      · exact (fillParam N h).bind fun _ _ hc => ih hc

theorem pickupPass {refinements : List Nat} (h : c.Matches ρ c') :
    ρ.Holds (CallState.Matches ρ) (ev.pickupPass frame refinements c)
      (ev.pickupPass (ρ.callFrame frame) refinements c') := by
  induction refinements generalizing c c' with
  | nil => exact .ret h
  | cons r rest ih =>
    unfold Evaluator.pickupPass
    rw [h.action.refinementArguments]
    refine (fillAll N h).bind fun _ _ hc => ?_
    exact (revokeIfNull hc).bind fun _ _ hd => ih hd

theorem fulfil {left left' : Option Value} (h : c.Matches ρ c')
    (hl : Value.MaybeMatch ρ left left') :
    ρ.Holds (CallState.Matches ρ) (ev.fulfil frame left c)
      (ev.fulfil (ρ.callFrame frame) left' c') := by
  refine (fillLeft? h hl).bind fun c₁ c₁' h₁ => ?_
  rw [h₁.action.params]
  refine (mainPass N h₁).bind fun c₂ c₂' h₂ => ?_
  rw [checkRequests h₂, h₂.pickups]
  exact (Holds.ofExcept (Checks.same _)).bind fun _ _ _ => pickupPass N h₂

end Renumbering

end Homoicon
