import Mathlib.Logic.Relation
import Homoicon.Proofs.Fulfilment

/-!
# Going on as another action

An adaptation runs its prelude over the parameters as words, takes the slots over as the words say
and goes on as the action it adapts, once the slots passed a second check.  That check looks at
arguments only.  So what it restores is the contract of the arguments; the contract of a refinement
outlives a prelude only if the prelude leaves the words of the refinement and of its arguments as
they are.
-/

namespace Homoicon

/-! ### Adaptations over one parameter list -/

mutual

/-- Every adaptation at the top of the action has the parameters of the action it adapts. -/
def Action.Layered : Action → Prop
  | .mk _ params _ dispatcher _ _ _ _ => dispatcher.LayeredOver params

def Dispatcher.LayeredOver (params : List Param) : Dispatcher → Prop
  | .adapted _ _ adaptee => adaptee.params = params ∧ adaptee.Layered
  | _ => True

end

theorem Action.Layered.dispatcher {a : Action} (h : a.Layered) :
    a.dispatcher.LayeredOver a.params := by
  cases a
  exact h

/-! ### The second check -/

theorem forM_eq_ok {ε α : Type} {xs : List α} {f : α → Except ε Unit} :
    xs.forM f = .ok () ↔ ∀ x ∈ xs, f x = .ok () := by
  induction xs with
  | nil => simp [List.forM, pure, Except.pure]
  | cons x xs ih =>
    show (f x >>= fun _ => xs.forM f) = _ ↔ _
    rw [except_bind_eq_ok, List.forall_mem_cons, ih]
    exact ⟨fun ⟨_, hx, hxs⟩ => ⟨hx, hxs⟩, fun ⟨hx, hxs⟩ => ⟨(), hx, hxs⟩⟩

namespace CallState

/-- The second check of an argument is the first one, but that it excuses a null of every parameter
that can be skipped. -/
theorem checkSlot_holds {c : CallState} {p : Param} {i : Nat} (h : c.checkSlot p i = .ok ())
    (hr : p.role ≠ .refinement) :
    p.Holds (c.slot i) ∨ c.slot i = .null ∧ p.types.skippable = true := by
  have checked : checkUnless p.mayBeAbsent c.label p (c.slot i) = .ok () →
      p.Holds (c.slot i) ∨ c.slot i = .null ∧ p.types.skippable = true := by
    intro h
    unfold checkUnless at h
    split at h
    · rename_i habsent
      obtain ⟨hnull, habsent⟩ := Bool.and_eq_true_iff.1 habsent
      rw [Value.isNull_iff.1 hnull]
      simp only [Param.mayBeAbsent, Bool.or_eq_true] at habsent
      rcases habsent with (howner | hend) | hskip
      · exact .inl (.of_absent (.inr (.inr howner)))
      · exact .inl (.of_absent (.inl hend))
      · exact .inr ⟨rfl, hskip⟩
    · unfold checkType at h
      split at h
      · exact .inl (.of_accepts hr ‹_›)
      · cases h
  unfold checkSlot at h
  split at h
  · exact checked h
  · exact checked h
  · exact checked h
  · exact checked h
  · left
    unfold Param.Holds
    split <;> trivial

theorem checkAll_eq_ok {c : CallState} :
    c.checkAll = .ok () ↔ ∀ i p, c.action.params[i]? = some p → c.checkSlot p i = .ok () := by
  unfold checkAll
  rw [forM_eq_ok]
  constructor
  · exact fun h i p hp => h (p, i) (List.mem_zipIdx_iff_getElem?.2 hp)
  · exact fun h e he => h e.2 e.1 (List.mem_zipIdx_iff_getElem?.1 he)

/-! ### Slots taken over from words -/

/-- `c'` is `c` with some slots as the words of their parameters say. -/
structure RefilledBy (look : String → Option Value) (c c' : CallState) : Prop where
  action : c'.action = c.action
  length : c'.slots.length = c.slots.length
  slot : ∀ i, c'.slot i = c.slot i ∨ ∃ p, c.action.params[i]? = some p ∧
    c.action.isSpecializable p i = true ∧ look p.name = some (c'.slot i)

theorem RefilledBy.refill {look : String → Option Value} {c c' : CallState} {i : Nat} {p : Param}
    {v : Value} (hp : c.action.params[i]? = some p) (hs : c.action.isSpecializable p i = true)
    (hv : look p.name = some v) (h : (c.refill i v).RefilledBy look c') : c.RefilledBy look c' := by
  refine ⟨h.action, by simpa [CallState.refill] using h.length, fun j => ?_⟩
  rcases h.slot j with hj | hj
  · by_cases hji : j = i
    · subst hji
      by_cases hlt : j < c.slots.length
      · rw [slot_refill_self v hlt] at hj
        exact .inr ⟨p, hp, hs, hj ▸ hv⟩
      · left
        rw [hj]
        simp [CallState.slot, CallState.refill, hlt]
    · rw [slot_refill_of_ne v hji] at hj
      exact .inl hj
  · exact .inr hj

end CallState

theorem refillFrom_run (scope : ScopeId) (m : Machine) {entries : List (Param × Nat)}
    {c : CallState} (hentries : ∀ e ∈ entries, c.action.params[e.2]? = some e.1) :
    ∃ c', refillFrom scope entries c m = (.done c', m) ∧ c.RefilledBy (m.lookup scope) c' := by
  induction entries generalizing c with
  | nil => exact ⟨c, rfl, rfl, rfl, fun _ => .inl rfl⟩
  | cons e rest ih =>
    obtain ⟨p, i⟩ := e
    have hp := hentries (p, i) (by simp)
    have hrest : ∀ e ∈ rest, c.action.params[e.2]? = some e.1 :=
      fun e he => hentries e (by simp [he])
    unfold refillFrom
    split
    · rename_i hs
      have look : Eval.lookup scope p.name m = (.done (m.lookup scope p.name), m) := rfl
      rw [Eval.run_bind_of_done look]
      cases hv : m.lookup scope p.name with
      | none => exact ih hrest
      | some v =>
        obtain ⟨c', hrun, hc'⟩ := ih (c := c.refill i v) hrest
        exact ⟨c', hrun, hc'.refill hp hs hv⟩
    · exact ih hrest

/-! ### From dispatcher to dispatcher -/

/-- A call that is about to run its dispatcher, and the machine it does so on. -/
abbrev CallPoint := CallState × Machine

namespace Evaluator

/-- Where a call goes on when its dispatcher asks to go on as another action: that action has the
same parameter list, and the slots pass the second check if the dispatcher asks for it. -/
def redo? (ev : Evaluator) (frame : Frame) (s : CallPoint) : Option (Bool × CallPoint) :=
  match ev.runDispatcher frame s.1 s.2 with
  | (.done (.redo a checked, c), m) =>
    let passes := !checked || (CallState.checkAll { c with action := a }).isOk
    if c.action.signature = a.signature ∧ passes = true then
      some (checked, { c with action := a }, m.note (.redone c.label checked))
    else none
  | _ => none

/-- The points at which a call that starts at `s₀` runs a dispatcher, each with whether it was
reached by a checked redo. -/
inductive Dispatched (ev : Evaluator) (frame : Frame) (s₀ : CallPoint) :
    Bool → CallPoint → Prop where
  | first : Dispatched ev frame s₀ false s₀
  | again {b checked : Bool} {s s' : CallPoint} (before : Dispatched ev frame s₀ b s)
    (redo : ev.redo? frame s = some (checked, s')) : Dispatched ev frame s₀ checked s'

variable {ev : Evaluator} {frame : Frame} {checked : Bool} {s s' s₀ : CallPoint}

theorem redo?_eq_some : ev.redo? frame s = some (checked, s') ↔
    ∃ a c m, ev.runDispatcher frame s.1 s.2 = (.done (.redo a checked, c), m) ∧
      c.action.signature = a.signature ∧
      (checked = true → CallState.checkAll { c with action := a } = .ok ()) ∧
      s' = ({ c with action := a }, m.note (.redone c.label checked)) := by
  unfold redo?
  constructor
  · intro h
    split at h
    · rename_i a checked' c m hrun
      obtain ⟨⟨same, passes⟩, he⟩ := Option.ite_none_right_eq_some.1 h
      cases he
      refine ⟨a, c, m, hrun, same, ?_, rfl⟩
      rintro rfl
      rcases hcheck : CallState.checkAll { c with action := a } with f | _
      · rw [hcheck] at passes
        cases passes
      · rfl
    · cases h
  · rintro ⟨a, c, m, hrun, same, check, rfl⟩
    rw [hrun]
    refine Option.ite_none_right_eq_some.2 ⟨⟨same, ?_⟩, rfl⟩
    cases checked with
    | false => rfl
    | true => simp [check rfl, Except.isOk, Except.toBool]

theorem runFilled_of_redo (h : ev.redo? frame s = some (checked, s')) (fuel : Nat) :
    ev.runFilled frame (fuel + 1) s.1 s.2 = ev.runFilled frame fuel s'.1 s'.2 := by
  obtain ⟨a, c, m, hrun, same, check, rfl⟩ := redo?_eq_some.1 h
  have noted : Eval.note (.redone c.label checked) m =
      (.done (), m.note (.redone c.label checked)) := rfl
  have passed : Eval.onlyIf checked (Eval.ofExcept (CallState.checkAll { c with action := a }))
      (m.note (.redone c.label checked)) = (.done (), m.note (.redone c.label checked)) := by
    cases checked with
    | false => rfl
    | true => simp [Eval.onlyIf, check rfl, Eval.ofExcept]
  show (ev.runDispatcher frame s.1 >>= _) s.2 = _
  rw [Eval.run_bind_of_done hrun]
  simp only [same, ne_eq, not_true_eq_false, if_false]
  rw [Eval.run_bind_of_done noted, Eval.run_bind_of_done passed]

/-- A call that does not go on as another action runs no further dispatcher, so that it ends the
same however much patience is left. -/
theorem runFilled_over (h : ev.redo? frame s = none) (fuel fuel' : Nat) :
    ev.runFilled frame (fuel + 1) s.1 s.2 = ev.runFilled frame (fuel' + 1) s.1 s.2 := by
  show (ev.runDispatcher frame s.1 >>= _) s.2 = (ev.runDispatcher frame s.1 >>= _) s.2
  simp only [Eval.run_bind]
  rcases hrun : ev.runDispatcher frame s.1 s.2 with ⟨⟨bounce, c⟩ | _ | _ | _, m⟩
  · cases bounce with
    | out => rfl
    | invisible => rfl
    | redo a checked =>
      dsimp only
      split
      · rfl
      · rename_i same
        -- the check fails, or this would be a redo
        obtain ⟨rfl, f, hf⟩ : checked = true ∧
            ∃ f, CallState.checkAll { c with action := a } = .error f := by
          have same := Decidable.not_not.1 same
          have fails : ¬ (checked = true → CallState.checkAll { c with action := a } = .ok ()) := by
            intro check
            have hredo := redo?_eq_some.2 ⟨a, c, m, hrun, same, check, rfl⟩
            rw [h] at hredo
            cases hredo
          rcases hcheck : CallState.checkAll { c with action := a } with f | _
          · exact ⟨by cases checked with | false => simp at fails | true => rfl, f, rfl⟩
          · exact absurd (fun _ => hcheck) fails
        simp [Eval.onlyIf, hf, Eval.ofExcept, Eval.run_bind]
  all_goals rfl

theorem Dispatched.runFilled (h : ev.Dispatched frame s₀ checked s) :
    ∃ n, ∀ fuel, ev.runFilled frame (fuel + n) s₀.1 s₀.2 = ev.runFilled frame fuel s.1 s.2 := by
  induction h with
  | first => exact ⟨0, fun _ => rfl⟩
  | again _ redo ih =>
    obtain ⟨n, hn⟩ := ih
    refine ⟨n + 1, fun fuel => ?_⟩
    rw [← runFilled_of_redo redo, ← hn, Nat.add_right_comm, Nat.add_assoc]

/-- After a checked redo every argument is one that its parameter allows, or a null that the second
check alone excuses. -/
theorem redo?_arguments (h : ev.redo? frame s = some (true, s')) {i : Nat} {p : Param}
    (hp : s'.1.action.params[i]? = some p) (hr : p.role ≠ .refinement) :
    p.Holds (s'.1.slot i) ∨ s'.1.slot i = .null ∧ p.types.skippable = true := by
  obtain ⟨a, c, m, -, -, check, rfl⟩ := redo?_eq_some.1 h
  exact CallState.checkSlot_holds (CallState.checkAll_eq_ok.1 (check rfl) i p hp) hr

end Evaluator

/-! ### Refinements under a prelude -/

namespace CallState

variable {c c' : CallState} {r : Nat} {look : String → Option Value}

/-- The contract of the refinement at `r`: it is null or its own name, and in use with all of its
arguments or not at all. -/
structure Upholds (c : CallState) (r : Nat) : Prop where
  named : ∀ p, c.action.params[r]? = some p → p.Holds (c.slot r)
  settled : c.action.refinementArguments r ≠ [] → c.Settled r

/-- The words of the refinement at `r` and of its arguments are as the slots are: that of the
refinement in its value, those of the arguments in being null. -/
def Spares (c : CallState) (r : Nat) (look : String → Option Value) : Prop :=
  ∀ i p v, c.action.params[i]? = some p → c.action.isSpecializable p i = true →
    look p.name = some v →
      (i = r → v = c.slot i) ∧ (p.owner = some r → (v = .null ↔ c.slot i = .null))

theorem Fulfilled.upholds (h : c.Fulfilled) (hr : IsRefinementAt c.action.params r) :
    c.Upholds r := by
  refine ⟨h.holds r, fun hargs => ?_⟩
  obtain ⟨hnull, hused⟩ := h.refinements r hr hargs
  by_cases hslot : c.slot r = .null
  · exact .inl ⟨hslot, hnull.1 hslot⟩
  · exact .inr ⟨hslot, hused hslot⟩

theorem Settled.null_iff (h : c.Settled r) (hargs : c.action.refinementArguments r ≠ []) :
    c.slot r = .null ↔ ∀ i ∈ c.action.refinementArguments r, c.slot i = .null := by
  rcases h with ⟨hslot, hall⟩ | ⟨hslot, hnone⟩
  · exact iff_of_true hslot hall
  · obtain ⟨i, hi⟩ := List.exists_mem_of_ne_nil _ hargs
    exact iff_of_false hslot fun hall => hnone i hi (hall i hi)

theorem Upholds.refilled (h : c.Upholds r) (hc : c.RefilledBy look c') (hs : c.Spares r look) :
    c'.Upholds r := by
  -- a slot that the words changed has the value of its word, which the refinement's own word keeps
  have same : c'.slot r = c.slot r := by
    rcases hc.slot r with hr | ⟨p, hp, hp', hv⟩
    · exact hr
    · exact (hs r p _ hp hp' hv).1 rfl
  have nulls : ∀ i ∈ c.action.refinementArguments r, c'.slot i = .null ↔ c.slot i = .null := by
    intro i hi
    obtain ⟨q, hq, howner⟩ := Action.mem_refinementArguments.1 hi
    rcases hc.slot i with hslot | ⟨p, hp, hp', hv⟩
    · rw [hslot]
    · obtain rfl : p = q := Option.some.inj (hp.symm.trans hq)
      exact (hs i p _ hp hp' hv).2 howner
  refine ⟨fun p hp => same ▸ h.named p (hc.action ▸ hp), fun hargs => ?_⟩
  rw [hc.action] at hargs
  rcases h.settled hargs with ⟨hslot, hall⟩ | ⟨hslot, hnone⟩
  · refine .inl ⟨same ▸ hslot, fun i hi => ?_⟩
    rw [hc.action] at hi
    exact (nulls i hi).2 (hall i hi)
  · refine .inr ⟨same ▸ hslot, fun i hi => ?_⟩
    rw [hc.action] at hi
    exact fun hnull => hnone i hi ((nulls i hi).1 hnull)

theorem Upholds.goOn (h : c.Upholds r) {a : Action} (ha : a.params = c.action.params) :
    Upholds { c with action := a } r := by
  have hargs : a.refinementArguments r = c.action.refinementArguments r := by
    unfold Action.refinementArguments
    rw [ha]
  refine ⟨fun p hp => h.named p (ha ▸ hp), fun hne => ?_⟩
  rw [hargs] at hne
  exact (h.settled hne).imp (fun ⟨hslot, hall⟩ => ⟨hslot, fun i hi => hall i (hargs ▸ hi)⟩)
    fun ⟨hslot, hnone⟩ => ⟨hslot, fun i hi => hnone i (hargs ▸ hi)⟩

end CallState

namespace Evaluator

variable {ev : Evaluator} {frame : Frame} {checked : Bool} {s s' s₀ : CallPoint}

/-- The words of a call as the prelude of its adaptation leaves them. -/
def wordsAfter? (ev : Evaluator) (s : CallPoint) : Option (String → Option Value) :=
  match s.1.action.dispatcher with
  | .adapted prelude scope _ =>
    let leave : Eval ScopeId := do
      let inner ← bodyScope s.1 scope
      let _ ← ev.runUnits prelude inner
      return inner
    match leave s.2 with
    | (.done inner, m) => some (m.lookup inner)
    | _ => none
  | _ => none

/-- The checked redo of an adaptation whose prelude spares the refinement at `r`. -/
structure SparingRedo (ev : Evaluator) (frame : Frame) (r : Nat) (s s' : CallPoint) : Prop where
  redo : ev.redo? frame s = some (true, s')
  spares : ∃ look, ev.wordsAfter? s = some look ∧ s.1.Spares r look

/-- An adaptation goes on as the action it adapts, with its slots as the words say. -/
theorem redo?_adapted {look : String → Option Value} (h : ev.redo? frame s = some (checked, s'))
    (hlook : ev.wordsAfter? s = some look) :
    ∃ prelude scope adaptee c, s.1.action.dispatcher = .adapted prelude scope adaptee ∧
      s.1.RefilledBy look c ∧ s'.1 = { c with action := adaptee } := by
  obtain ⟨a, c, m, hrun, -, -, rfl⟩ := redo?_eq_some.1 h
  unfold wordsAfter? at hlook
  split at hlook
  · rename_i prelude scope adaptee hd
    simp only [runDispatcher, hd] at hrun
    obtain ⟨c₁, m₁, hprelude, hbounce⟩ := Eval.run_bind_eq_done.1 hrun
    cases hbounce
    obtain ⟨inner, m₂, hscope, hrest⟩ := Eval.run_bind_eq_done.1 hprelude
    obtain ⟨v, m₃, hunits, hrefill⟩ := Eval.run_bind_eq_done.1 hrest
    dsimp only at hlook
    rw [Eval.run_bind_of_done hscope, Eval.run_bind_of_done hunits] at hlook
    cases hlook
    have hentries : ∀ e ∈ s.1.action.params.zipIdx, s.1.action.params[e.2]? = some e.1 :=
      fun e he => List.mem_zipIdx_iff_getElem?.1 he
    obtain ⟨c', hrefill', hc'⟩ := refillFrom_run inner m₃ hentries
    rw [hrefill] at hrefill'
    cases hrefill'
    exact ⟨prelude, scope, a, c, hd, hc', rfl⟩
  · cases hlook

/-- What a chain of adaptations keeps of a refinement that every prelude spares. -/
structure Sparing (params : List Param) (r : Nat) (c : CallState) : Prop where
  params_eq : c.action.params = params
  layered : c.action.Layered
  upholds : c.Upholds r

theorem SparingRedo.sparing {params : List Param} {r : Nat} (h : ev.SparingRedo frame r s s')
    (hs : Sparing params r s.1) : Sparing params r s'.1 := by
  obtain ⟨redo, look, hlook, hspares⟩ := h
  obtain ⟨prelude, scope, adaptee, c, hd, hc, he⟩ := redo?_adapted redo hlook
  have hlayers := hs.layered.dispatcher
  rw [hd] at hlayers
  obtain ⟨hparams, hlayered⟩ : adaptee.params = s.1.action.params ∧ adaptee.Layered := hlayers
  rw [he]
  refine ⟨hparams.trans hs.params_eq, hlayered, ?_⟩
  exact (hs.upholds.refilled hc hspares).goOn (hc.action ▸ hparams)

/-- The slots of a call of an action that was adapted any number of times.  The call runs its
dispatchers at the dispatched points and nowhere else.  After a checked redo each argument is one
that its parameter allows, or a null of a parameter that can be skipped.  A refinement is null or its
own name, and null exactly when all of its arguments are, as long as every prelude spared it. -/
theorem redone_contract (ev : Evaluator) (frame : Frame) (p : PendingCall) (m₀ m : Machine)
    (c : CallState) (made : p.action.Made) (layered : p.action.Layered)
    (enfixed : p.left.isSome = true → p.action.enfixed = true)
    (h : ev.fulfil frame p.left (CallState.start p) m₀ = (.done c, m)) :
    (∀ checked s, ev.Dispatched frame (c, m) checked s →
      (∃ n, ∀ fuel, ev.runFilled frame (fuel + n) c m = ev.runFilled frame fuel s.1 s.2) ∧
      (ev.redo? frame s = none → ∀ fuel fuel',
        ev.runFilled frame (fuel + 1) s.1 s.2 = ev.runFilled frame (fuel' + 1) s.1 s.2) ∧
      (checked = true → ∀ i q, s.1.action.params[i]? = some q → q.role ≠ .refinement →
        q.Holds (s.1.slot i) ∨ s.1.slot i = .null ∧ q.types.skippable = true)) ∧
    ∀ r q s, p.action.params[r]? = some q → q.role = .refinement →
      Relation.ReflTransGen (ev.SparingRedo frame r) (c, m) s →
        s.1.action.params = p.action.params ∧
        (s.1.slot r = .null ∨ s.1.slot r = .refinement q.name) ∧
        (s.1.action.refinementArguments r ≠ [] →
          (s.1.slot r = .null ↔
            ∀ i ∈ s.1.action.refinementArguments r, s.1.slot i = .null)) := by
  obtain ⟨haction, hfulfilled⟩ := fulfil_returns made enfixed m₀ c m h
  constructor
  · intro checked s hs
    refine ⟨hs.runFilled, runFilled_over, ?_⟩
    rintro rfl i q hq hr
    obtain - | ⟨-, redo⟩ := hs
    exact redo?_arguments redo hq hr
  · intro r q s hq hr hchain
    have hstart : Sparing p.action.params r c :=
      ⟨haction ▸ rfl, haction ▸ layered,
        hfulfilled.upholds (by rw [haction]; exact ⟨q, hq, hr⟩)⟩
    have hs : Sparing p.action.params r s.1 := by
      induction hchain with
      | refl => exact hstart
      | tail _ redo ih => exact redo.sparing ih
    refine ⟨hs.params_eq, ?_, fun hargs => (hs.upholds.settled hargs).null_iff hargs⟩
    have hholds := hs.upholds.named q (hs.params_eq ▸ hq)
    simpa only [Param.Holds, hr] using hholds

/-- A call of `func [x /r] []`, adapted with `[r: 5]` and then with `[x: 2]`. -/
def overwriting : PendingCall :=
  let base : Action :=
    { label := none
      params := (Spec.read [.word "x", .refinement "r"]).toOption.elim [] (·.params)
      signature := 0
      dispatcher := .interpreted [] 0
      exemplar := none
      enfixed := false
      deferral := .none
      description := none }
  let inner := { base with dispatcher := .adapted [.setWord "r", .integer 5] 0 base }
  { action := { inner with dispatcher := .adapted [.setWord "x", .integer 2] 0 inner }
    label := "g" }

/-- The code `1`, for the call to take its argument from. -/
def oneArgument : Machine :=
  { Machine.new {} with
    scopes := { cells := #[{}] }
    feeds := #[{ units := [.integer 1], scope := 0 }] }

/-- The first prelude spares the refinement and the second one does not: the slot of `/r` ends up
with the value 5 and passes the second check. -/
theorem redone_contract_overwriting : ∃ (ev : Evaluator) (frame : Frame) (c : CallState)
    (m : Machine) (s₁ s₂ : CallPoint),
    ev.fulfil frame none (CallState.start overwriting) oneArgument = (.done c, m) ∧
      ev.Dispatched frame (c, m) true s₁ ∧ ev.Dispatched frame (c, m) true s₂ ∧
      s₁.1.slots.map Value.mold = ["2", "null"] ∧ s₂.1.slots.map Value.mold = ["2", "5"] ∧
      (s₁.1.slot 1 = .null ∨ s₁.1.slot 1 = .refinement "r") ∧
      ∃ q, s₂.1.action.params[0]? = some q ∧ q.Holds (s₂.1.slot 0) := by
  let ev := Evaluator.ofConfig {}
  let frame : Frame := { id := 0, feed := 0 }
  let x := ev.fulfil frame none (CallState.start overwriting) oneArgument
  let start : Option CallPoint := x.1.result?.map fun c => (c, x.2)
  let first := start.bind (ev.redo? frame)
  let second := first.bind fun e => ev.redo? frame e.2
  let view (e : Bool × CallPoint) : Bool × List String × Option (Role × Bool) :=
    (e.1, e.2.1.slots.map Value.mold,
      (e.2.1.action.params[0]?).map fun q => (q.role, q.types.skippable))
  have hstart : start.map (fun s => (s.1.slot 1).isNull) = some true := by decide +kernel
  have hfirst : first.map view = some (true, ["2", "null"], some (.normal, false)) := by
    decide +kernel
  have hsecond : second.map view = some (true, ["2", "5"], some (.normal, false)) := by
    decide +kernel
  have hwords : (start.bind ev.wordsAfter?).map (fun look => (look "r").map Value.isNull) =
      some (some true) := by
    decide +kernel
  obtain ⟨s, hs, hnull⟩ := Option.map_eq_some_iff.1 hstart
  obtain ⟨c, hc, rfl⟩ := Option.map_eq_some_iff.1 hs
  obtain ⟨⟨_, s₁⟩, hs₁, hview₁⟩ := Option.map_eq_some_iff.1 hfirst
  obtain ⟨⟨_, s₂⟩, hs₂, hview₂⟩ := Option.map_eq_some_iff.1 hsecond
  obtain ⟨look, hlook, hr⟩ := Option.map_eq_some_iff.1 hwords
  simp only [view, Prod.mk.injEq] at hview₁ hview₂
  obtain ⟨rfl, hslots₁, -⟩ := hview₁
  obtain ⟨rfl, hslots₂, hview⟩ := hview₂
  have redo₁ : ev.redo? frame (c, x.2) = some (true, s₁) := by simpa [first, hs] using hs₁
  have redo₂ : ev.redo? frame s₁ = some (true, s₂) := by simpa [second, hs₁] using hs₂
  have words : ev.wordsAfter? (c, x.2) = some look := by simpa [hs] using hlook
  obtain ⟨q, hq, hrole⟩ := Option.map_eq_some_iff.1 hview
  have fulfilled := Eval.run_of_result? hc
  have read : Spec.read [.word "x", .refinement "r"] =
      .ok { params := overwriting.action.params } := rfl
  have made : overwriting.action.Made := .read read (.inl rfl) rfl rfl
  have layered : overwriting.action.Layered := ⟨rfl, rfl, trivial⟩
  have prefixed : overwriting.left.isSome = true → overwriting.action.enfixed = true := by
    simp [overwriting]
  obtain ⟨haction, -⟩ := fulfil_returns made prefixed _ _ _ fulfilled
  obtain ⟨arguments, refinements⟩ :=
    redone_contract ev frame overwriting oneArgument x.2 c made layered prefixed fulfilled
  have dispatched : ev.Dispatched frame (c, x.2) true s₂ := .again (.again .first redo₁) redo₂
  have spares : c.Spares 1 look := by
    intro i q v hq _ hv
    rw [haction] at hq
    obtain ⟨hname, howner⟩ : (i = 1 → q.name = "r") ∧ q.owner = none := by
      match i with
      | 0 => exact (Option.some.inj hq) ▸ ⟨by simp, rfl⟩
      | 1 => exact (Option.some.inj hq) ▸ ⟨fun _ => rfl, rfl⟩
      | _ + 2 => cases hq
    refine ⟨?_, by simp [howner]⟩
    rintro rfl
    rw [hname rfl] at hv
    rw [hv] at hr
    rw [Value.isNull_iff.1 hnull, Value.isNull_iff.1 (Option.some.inj hr)]
  refine ⟨ev, frame, c, x.2, s₁, s₂, fulfilled, .again .first redo₁, dispatched, hslots₁, hslots₂,
    ?_, q, hq, ?_⟩
  · exact (refinements 1 _ s₁ rfl rfl (.single ⟨redo₁, look, words, spares⟩)).2.1
  · obtain ⟨hrole, hskip⟩ := Prod.mk.inj hrole
    have holds := (arguments true s₂ dispatched).2.2 rfl 0 q hq (by simp [hrole])
    refine holds.resolve_right ?_
    simp [hskip]

end Evaluator

end Homoicon
