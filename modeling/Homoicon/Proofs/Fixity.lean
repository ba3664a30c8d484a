import Homoicon.Proofs.Embedding
import Homoicon.Registry.Standard

/-!
# Infix and prefix calls

An action that takes two arguments can be called with both of them behind its name or, once it is
enfixed, with its name between them.  The first argument gets to its slot by two different ways: it is
evaluated and checked as an argument of the call, or it is the value of a step that the call takes up
as its left operand.  Both ways lead to the same call or to the same refusal.
-/

namespace Homoicon

/-- Two parameters of an action, for its left and its right operand, and their positions. -/
structure Sides where
  left : Nat
  leftParam : Param
  right : Nat
  rightParam : Param

/-- The two parameters take evaluated arguments wherever the action is called, and no others do; the
first argument may not be absent, and no slot is filled beforehand. -/
structure Action.TakesTwo (a : Action) (t : Sides) : Prop where
  preset : a.exemplar = none
  left : a.params[t.left]? = some t.leftParam
  right : a.params[t.right]? = some t.rightParam
  before : t.left < t.right
  leftNormal : t.leftParam.role = .normal
  rightNormal : t.rightParam.role = .normal
  leftFree : t.leftParam.owner = none
  rightFree : t.rightParam.owner = none
  leftNeeded : t.leftParam.types.endable = false
  only : ∀ i p, a.params[i]? = some p → p.IsArgument → i = t.left ∨ i = t.right

namespace Action.TakesTwo

variable {a b : Action} {t : Sides}

theorem of_params (h : a.TakesTwo t) (hparams : b.params = a.params) (hexemplar : b.exemplar = none) :
    b.TakesTwo t :=
  ⟨hexemplar, hparams ▸ h.left, hparams ▸ h.right, h.before, h.leftNormal, h.rightNormal, h.leftFree,
    h.rightFree, h.leftNeeded, hparams ▸ h.only⟩

theorem unset (h : a.TakesTwo t) (i : Nat) : a.preset? i = none := by
  rw [Action.preset?, h.preset]
  rfl

theorem leftArgument (h : a.TakesTwo t) : t.leftParam.IsArgument :=
  ⟨by rw [h.leftNormal]; rfl, h.leftFree⟩

theorem rightArgument (h : a.TakesTwo t) : t.rightParam.IsArgument :=
  ⟨by rw [h.rightNormal]; rfl, h.rightFree⟩

theorem firstArgument? (h : a.TakesTwo t) (made : a.Made) {deferral : Deferral}
    (enfix : a.enfixWith deferral = .ok b) : a.firstArgument? = some t.left := by
  obtain ⟨-, hfirst⟩ := enfixWith_eq_ok enfix
  obtain ⟨p, hp, hrole⟩ := (Option.any_eq_true _ _).1 hfirst
  obtain ⟨i, hi, hp⟩ := Option.bind_eq_some_iff.1 hp
  obtain ⟨_, htakes, hearlier⟩ := List.findIdx?_eq_some_iff_getElem.1 hi
  obtain ⟨_, rfl⟩ := List.getElem?_eq_some_iff.1 hp
  have harg : (a.params[i]).IsArgument := by
    refine ⟨?_, firstArgument?_free made.wellOwned hi hp⟩
    cases hr : (a.params[i]).role <;> simp_all [Role.takesArgument]
  rcases h.only i _ hp harg with rfl | rfl
  · exact hi
  · obtain ⟨_, hleft⟩ := List.getElem?_eq_some_iff.1 h.left
    have := hearlier t.left h.before
    simp [hleft, h.leftNormal] at this

end Action.TakesTwo

theorem zipIdx_split_two {α : Type} {xs : List α} {i j : Nat} {x y : α} (hij : i < j)
    (hi : xs[i]? = some x) (hj : xs[j]? = some y) :
    ∃ before between after, xs.zipIdx = before ++ (x, i) :: (between ++ (y, j) :: after) ∧
      ∀ e ∈ before ++ between ++ after, e.2 ≠ i ∧ e.2 ≠ j := by
  obtain ⟨before, rest, hsplit, -⟩ := zipIdx_split hi
  have hsorted : xs.zipIdx.Pairwise fun e e' => e.2 < e'.2 := by
    apply List.pairwise_map.1
    rw [List.zipIdx_map_snd]
    exact List.pairwise_lt_range'
  have hmem : (y, j) ∈ xs.zipIdx := List.mem_zipIdx_iff_getElem?.2 hj
  rw [hsplit] at hsorted hmem
  obtain ⟨-, hrest, hbefore⟩ := List.pairwise_append.1 hsorted
  obtain ⟨hrest, hsorted⟩ := List.pairwise_cons.1 hrest
  have hlater : (y, j) ∈ rest := by
    rcases List.mem_append.1 hmem with hearlier | hlater
    · have : j < i := hbefore _ hearlier _ List.mem_cons_self
      omega
    · rcases List.mem_cons.1 hlater with heq | hlater
      · cases heq
        omega
      · exact hlater
  obtain ⟨between, after, rfl⟩ := List.append_of_mem hlater
  obtain ⟨-, hafter, hbetween⟩ := List.pairwise_append.1 hsorted
  obtain ⟨hafter, -⟩ := List.pairwise_cons.1 hafter
  refine ⟨before, between, after, hsplit, fun e he => ?_⟩
  rcases List.mem_append.1 he with he | he
  · rcases List.mem_append.1 he with he | he
    · have : e.2 < i := hbefore e he _ List.mem_cons_self
      omega
    · have : i < e.2 := hrest e (List.mem_append_left _ he)
      have : e.2 < j := hbetween e he _ List.mem_cons_self
      omega
  · have : j < e.2 := hafter e he
    omega

/-! ### Filling the slots -/

def Sides.operands (t : Sides) (x y : Value) : Nat → Option Value :=
  Function.update (Function.update (fun _ => none) t.left (some x)) t.right (some y)

theorem Sides.operands_left (t : Sides) (h : t.left ≠ t.right) {x y : Value} :
    t.operands x y t.left = some x := by
  rw [operands, Function.update_of_ne h, Function.update_self]

theorem Sides.operands_right (t : Sides) {x y : Value} : t.operands x y t.right = some y := by
  rw [operands, Function.update_self]

/-- How filling the slots ends: the left operand is refused with `g₁` left of the feed, the right one
with `g₂`, or both are in their slots with `g₂` left. -/
structure Filling (a : Action) (label : String) (t : Sides) (x y : Value) (g₁ g₂ : Feed)
    (o : Outcome CallState) (g : Feed) (n : Nat) : Prop where
  left : t.leftParam.types.accepts x = false →
    o = .failed (.of (.wrongType label t.leftParam.name x.kind)) ∧ g = g₁
  right : t.leftParam.types.accepts x = true → t.rightParam.types.accepts y = false →
    o = .failed (.of (.wrongType label t.rightParam.name y.kind)) ∧ g = g₂
  both : t.leftParam.types.accepts x = true → t.rightParam.types.accepts y = true →
    ∃ c, o = .done c ∧ c.Given a label (t.operands x y) ∧ g = g₂
  silent : n = 0

namespace Filling

variable {a : Action} {label : String} {t : Sides} {x y : Value} {g₁ g₂ g : Feed} {c : CallState}
  {n : Nat}

theorem of_left (hleft : t.leftParam.types.accepts x = false) :
    Filling a label t x y g₁ g₂ (.failed (.of (.wrongType label t.leftParam.name x.kind))) g₁ 0 where
  left _ := ⟨rfl, rfl⟩
  right hx := by simp [hleft] at hx
  both hx := by simp [hleft] at hx
  silent := rfl

variable (hleft : t.leftParam.types.accepts x = true)

include hleft

theorem of_right (hright : t.rightParam.types.accepts y = false) :
    Filling a label t x y g₁ g₂ (.failed (.of (.wrongType label t.rightParam.name y.kind))) g₂ 0 where
  left hx := by simp [hleft] at hx
  right _ _ := ⟨rfl, rfl⟩
  both _ hy := by simp [hright] at hy
  silent := rfl

theorem of_both (hright : t.rightParam.types.accepts y = true)
    (hc : c.Given a label (t.operands x y)) : Filling a label t x y g₁ g₂ (.done c) g₂ 0 where
  left hx := by simp [hleft] at hx
  right _ hy := by simp [hright] at hy
  both _ _ := ⟨c, rfl, hc, rfl⟩
  silent := rfl

omit hleft

/-- Slots are filled with both operands or not at all. -/
theorem given (h : Filling a label t x y g₁ g₂ (.done c) g n) : c.Given a label (t.operands x y) := by
  cases hleft : t.leftParam.types.accepts x with
  | false => cases (h.left hleft).1
  | true =>
    cases hright : t.rightParam.types.accepts y with
    | false => cases (h.right hleft hright).1
    | true =>
      obtain ⟨_, ho, hc, -⟩ := h.both hleft hright
      cases ho
      exact hc

end Filling

namespace Stage

variable {S : Stage} {depth : Nat} {f g₁ g₂ : Feed} {ev : Evaluator} {frame : Frame} {a : Action}
  {label : String} {t : Sides} {x y : Value} {c : CallState}

theorem Runs.rightSide {before after : List (Param × Nat)} (h : a.TakesTwo t)
    (hframe : frame.feed = S.feed)
    (hentries : ∀ e ∈ before ++ (t.rightParam, t.right) :: after, a.params[e.2]? = some e.1)
    (hothers : ∀ e ∈ before ++ after, e.2 ≠ t.right)
    (hc : c.Given a label (Function.update (fun _ => none) t.left (some x)))
    (hleft : t.leftParam.types.accepts x = true) (hmore : f.atArgumentEnd = false)
    (hdeferring : f.deferring = false)
    (hy : S.Gives depth (f.kept a.enfixed) (ev.evalExpression S.feed true) (some y) g₂) :
    S.Runs depth f (ev.mainPass frame (before ++ (t.rightParam, t.right) :: after) c)
      (Filling a label t x y g₁ g₂) := by
  have hne : t.left ≠ t.right := Nat.ne_of_lt h.before
  have hat : ∀ e ∈ before ++ after, a.params[e.2]? = some e.1 → e.1.IsArgument → e.2 = t.left :=
    fun e he hp harg => (h.only e.2 e.1 hp harg).resolve_right (hothers e he)
  refine Runs.mainPassArgument hframe h.unset hentries (fun e he harg => ?_) hc
    (Function.update_of_ne hne.symm _ _) h.rightNormal h.rightFree hmore hdeferring hy ?_
    ⟨by simp, by simp, by simp⟩ ?_ ?_
  · rw [hat e (List.mem_append_left _ he) (hentries e (List.mem_append_left _ he)) harg,
      Function.update_self]
    rfl
  · rintro g n ⟨_, ho, rfl, -⟩
    cases ho
  · rintro v g n ⟨_, ho, rfl, rfl, rfl⟩ hright
    cases ho
    exact .of_right hleft hright
  · rintro v g n c' ⟨_, ho, rfl, rfl, rfl⟩ hright hc'
    cases ho
    have hrest : S.Finds depth g (ev.mainPass frame after c')
        (fun c => c.Given a label (t.operands x y)) g := by
      refine Finds.mainPassIdle h.unset (fun e he => ?_) (fun e he harg => ?_) hc'
      · exact hentries e (List.mem_append_right _ (List.mem_cons_of_mem _ he))
      · have hparam := hentries e (List.mem_append_right _ (List.mem_cons_of_mem _ he))
        rw [hat e (List.mem_append_right _ he) hparam harg, t.operands_left hne]
        rfl
    apply hrest.mono
    rintro o g' n' ⟨c'', rfl, hc'', rfl, rfl⟩
    exact .of_both hleft hright hc''

theorem Runs.fulfilBehind (h : a.TakesTwo t) (prefixed : a.enfixed = false)
    (hframe : frame.feed = S.feed) (hmore : f.atArgumentEnd = false)
    (hdeferring : f.deferring = false) (hmore₁ : g₁.atArgumentEnd = false)
    (hdeferring₁ : g₁.deferring = false)
    (hx : S.Gives depth f (ev.evalExpression S.feed true) (some x) g₁)
    (hy : S.Gives depth g₁ (ev.evalExpression S.feed true) (some y) g₂) :
    S.Runs depth f (ev.fulfil frame none (CallState.start { action := a, label }))
      (Filling a label t x y g₁ g₂) := by
  have hkept : ∀ f : Feed, f.kept a.enfixed = f := by
    intro f
    rw [prefixed]
    rfl
  obtain ⟨before, between, after, hsplit, hothers⟩ := zipIdx_split_two h.before h.left h.right
  have hentries : ∀ e ∈ before ++ (t.leftParam, t.left) :: (between ++ (t.rightParam, t.right) :: after),
      a.params[e.2]? = some e.1 := by
    rw [← hsplit]
    exact fun e he => List.mem_zipIdx_iff_getElem?.1 he
  refine Runs.fulfilPass (Finds.noLeft rfl) (fun c hc => ?_) fun c g n hfilling => ⟨_, hfilling.given⟩
  have hc : c.Given a label fun _ => none := hc
  show S.Runs depth f (ev.mainPass frame a.params.zipIdx c) _
  rw [hsplit]
  refine Runs.mainPassArgument hframe h.unset hentries (fun e he harg => ?_) hc rfl h.leftNormal
    h.leftFree hmore hdeferring (by rw [hkept]; exact hx) ?_ ⟨by simp, by simp, by simp⟩ ?_ ?_
  · obtain ⟨hleft, hright⟩ := hothers e (List.mem_append_left _ (List.mem_append_left _ he))
    rcases h.only e.2 e.1 (hentries e (List.mem_append_left _ he)) harg with hat | hat
    · exact absurd hat hleft
    · exact absurd hat hright
  · rintro g n ⟨_, ho, rfl, -⟩
    cases ho
  · rintro v g n ⟨_, ho, rfl, rfl, rfl⟩ hleft
    cases ho
    exact .of_left hleft
  · rintro v g n c' ⟨_, ho, rfl, rfl, rfl⟩ hleft hc'
    cases ho
    simp only [Nat.zero_add]
    refine Runs.rightSide h hframe (fun e he => ?_) (fun e he => ?_) hc' hleft hmore₁ hdeferring₁
      (by rw [hkept]; exact hy)
    · exact hentries e (List.mem_append_right _ (List.mem_cons_of_mem _ he))
    · refine (hothers e ?_).2
      rw [List.append_assoc]
      exact List.mem_append_right _ he

theorem Runs.leftRefused {p : PendingCall} {i : Nat} {q : Param}
    (hfirst : p.action.firstArgument? = some i) (hq : p.action.params[i]? = some q)
    (hrole : q.role = .normal) (hneeded : q.types.endable = false)
    (hrefused : q.types.accepts x = false) :
    S.Runs depth f (Evaluator.fillLeft? (CallState.start p) (some x)) fun o g n =>
      o = .failed (.of (.wrongType p.label q.name x.kind)) ∧ g = f ∧ n = 0 := by
  have hfirst' : (CallState.start p).action.firstArgument? = some i := hfirst
  have hq' : (CallState.start p).action.params[i]? = some q := hq
  have hchecked : checkUnless q.types.endable (CallState.start p).label q x =
      .error (.of (.wrongType p.label q.name x.kind)) := by
    simp only [checkUnless, checkType, hneeded, hrefused, Bool.and_false, Bool.false_eq_true, if_false]
    rfl
  unfold Evaluator.fillLeft? Evaluator.fillLeft
  simp only [hfirst', hq', Evaluator.leftArgument, hrole]
  show S.Runs depth f (Eval.ofExcept (checkUnless q.types.endable (CallState.start p).label q x) >>=
    fun _ => Pure.pure ((CallState.start p).fill i x)) _
  rw [hchecked]
  exact Runs.fail ⟨rfl, rfl, rfl⟩

theorem Runs.fulfilBetween (h : a.TakesTwo t) (hfirst : a.firstArgument? = some t.left)
    (hframe : frame.feed = S.feed) (hmore : f.atArgumentEnd = false)
    (hdeferring : f.deferring = false)
    (hy : S.Gives depth (f.kept a.enfixed) (ev.evalExpression S.feed true) (some y) g₂) :
    S.Runs depth f (ev.fulfil frame (some x) (CallState.start { action := a, label, left := some x }))
      (Filling a label t x y f g₂) := by
  obtain ⟨before, between, after, hsplit, hothers⟩ := zipIdx_split_two h.before h.left h.right
  cases hleft : t.leftParam.types.accepts x with
  | true =>
    refine Runs.fulfilPass (Finds.left rfl hfirst h.left h.leftNormal hleft) (fun c hc => ?_)
      fun c g n hfilling => ⟨_, hfilling.given⟩
    have hassoc : a.params.zipIdx =
        (before ++ (t.leftParam, t.left) :: between) ++ (t.rightParam, t.right) :: after := by
      rw [hsplit, List.append_assoc]
      rfl
    show S.Runs depth f (ev.mainPass frame a.params.zipIdx c) _
    rw [hassoc]
    refine Runs.rightSide h hframe (fun e he => ?_) (fun e he => ?_) hc hleft hmore hdeferring hy
    · rw [← hassoc] at he
      exact List.mem_zipIdx_iff_getElem?.1 he
    · simp only [List.mem_append, List.mem_cons] at he
      rcases he with (he | rfl | he) | he
      · exact (hothers e (by simp [he])).2
      · exact Nat.ne_of_lt h.before
      · exact (hothers e (by simp [he])).2
      · exact (hothers e (by simp [he])).2
  | false =>
    unfold Evaluator.fulfil
    refine Runs.bind (Runs.leftRefused hfirst h.left h.leftNormal h.leftNeeded hleft) ?_ ?_
    · refine ⟨by simp, ?_, by simp⟩
      rintro e g n ⟨he, rfl, rfl⟩
      cases he
      exact .of_left hleft
    · rintro c g n ⟨ho, -⟩
      cases ho

end Stage

/-! ### One call -/

/-- The slots of a call of `a` are filled, those of the two operands with `x` and `y`. -/
structure CallState.FilledWith (c : CallState) (a : Action) (label : String) (t : Sides)
    (x y : Value) : Prop where
  action : c.action = a
  label : c.label = label
  length : c.slots.length = a.params.length
  left : c.slot t.left = x
  right : c.slot t.right = y

theorem CallState.Given.filledWith {c : CallState} {a : Action} {label : String} {t : Sides}
    {x y : Value} (h : a.TakesTwo t) (hc : c.Given a label (t.operands x y)) :
    c.FilledWith a label t x y :=
  ⟨hc.action, hc.label, hc.length,
    hc.slot _ _ x h.left h.leftArgument (t.operands_left (Nat.ne_of_lt h.before)),
    hc.slot _ _ y h.right h.rightArgument t.operands_right⟩

/-- The run is one call of `a` by the name `label`, which has consumed the feed, `last` at last, when
its slots are filled.  The action runs on them once, and the run ends as the action does; faults get
the name of the call and the unit. -/
def Eval.AppliesOnce (run : Eval (Option Value)) (m : Machine) (inner : Evaluator) (a : Action)
    (label : String) (t : Sides) (x y : Value) (feed : FeedId) (last : Value) : Prop :=
  ∃ frame c m₁, c.FilledWith a label t x y ∧ frame.feed = feed ∧ m₁.Spent feed last ∧
    run.Embeds m [label] (inner.runFilled frame (a.adaptations + 1 + inner.patience) c) m₁
      (Outcome.blamed (m₁.feed feed) label)

/-- The run applies the action to both operands if it accepts them, and fails for the first one that
it refuses, which is reported near the unit `near` or `last`. -/
structure Eval.CallsOnce (run : Eval (Option Value)) (m : Machine) (inner : Evaluator) (a : Action)
    (label : String) (t : Sides) (x y : Value) (feed : FeedId) (near last : Value) : Prop where
  applies : t.leftParam.types.accepts x = true → t.rightParam.types.accepts y = true →
    run.AppliesOnce m inner a label t x y feed last
  left : t.leftParam.types.accepts x = false → (run m).1 = .failed
    { cause := .wrongType label t.leftParam.name x.kind, near := some near.mold, label := some label }
  right : t.leftParam.types.accepts x = true → t.rightParam.types.accepts y = false →
    (run m).1 = .failed
      { cause := .wrongType label t.rightParam.name y.kind, near := some last.mold,
        label := some label }

namespace Eval.CallsOnce

variable {run outer : Eval (Option Value)} {m m₁ : Machine} {inner : Evaluator} {a : Action}
  {label : String} {t : Sides} {x y : Value} {feed : FeedId} {near last : Value}

theorem spent (h : run.CallsOnce m inner a label t x y feed near last) {v? : Option Value}
    {m' : Machine} (hrun : run m = (.done v?, m')) : m'.Spent feed last := by
  cases hleft : t.leftParam.types.accepts x with
  | false =>
    have houtcome := h.left hleft
    rw [hrun] at houtcome
    cases houtcome
  | true =>
    cases hright : t.rightParam.types.accepts y with
    | false =>
      have houtcome := h.right hleft hright
      rw [hrun] at houtcome
      cases houtcome
    | true =>
      obtain ⟨frame, c, m₂, -, -, hm₂, hembeds⟩ := h.applies hleft hright
      have hspent := hembeds.spent (Eval.run_spent _ hm₂)
      rwa [hrun] at hspent

theorem around (h : run.CallsOnce m₁ inner a label t x y feed near last)
    (hembeds : outer.Embeds m [] run m₁ id) :
    outer.CallsOnce m inner a label t x y feed near last where
  applies hleft hright := by
    obtain ⟨frame, c, m₂, hc, hframe, hm₂, hinner⟩ := h.applies hleft hright
    exact ⟨frame, c, m₂, hc, hframe, hm₂, hembeds.trans hinner⟩
  left hleft := hembeds.outcome.trans (h.left hleft)
  right hleft hright := hembeds.outcome.trans (h.right hleft hright)

end Eval.CallsOnce

namespace Stage

variable {S : Stage} {depth : Nat} {f g₁ g₂ : Feed} {ev : Evaluator} {p : PendingCall}
  {t : Sides} {x y near last : Value} {m : Machine}

/-- A call whose slots are filled in this way leaves no units behind if it comes to a result. -/
theorem callsOnce (h : p.action.TakesTwo t) (hroom : depth < S.maxDepth) (hlimit : depth + 1 ≤ S.limit)
    (hfulfil : ∀ name id, (S.counting name).Runs (depth + 1) f
      (ev.fulfil { id, feed := S.feed } p.left (CallState.start p))
      (Filling p.action p.label t x y g₁ g₂))
    (hnear : g₁.lookback = some near) (hunits : g₂.units = []) (hlast : g₂.lookback = some last)
    (hm : S.Shows depth f m) :
    (ev.invoke S.feed p).CallsOnce m ev p.action p.label t x y S.feed near last := by
  -- an operand that is refused ends the call before the action runs
  have hfailed : ∀ (e : Fault) (g : Feed), (∀ id, S.Runs (depth + 1) f
      (ev.fulfil { id, feed := S.feed } p.left (CallState.start p)) fun o g' _ =>
        o = .failed e ∧ g' = g) → (ev.invoke S.feed p m).1 = .failed (g.blame p.label e) := by
    intro e g hrefused
    have hinvoke : S.Runs depth f (ev.invoke S.feed p) fun o _ _ => o = .failed (g.blame p.label e) := by
      refine Runs.invoke (R := fun o g' _ => o = .failed e ∧ g' = g) hroom hlimit hrefused
        ⟨by simp, ?_, by simp⟩ ?_ ?_
      · rintro e' g' n ⟨ho, rfl⟩
        cases ho
        exact ⟨rfl, rfl⟩
      · rintro id c g' n ⟨ho, -⟩
        cases ho
      · rintro o g' n ⟨rfl, rfl⟩
        rfl
    obtain ⟨⟨_, -, houtcome⟩, -⟩ := hinvoke m hm
    exact houtcome
  constructor
  · intro hleft hright
    have hfinds : ∀ name, (S.counting name).Finds (depth + 1) f
        (ev.fulfil { id := m.nextFrame, feed := S.feed } p.left (CallState.start p))
        (fun c => c.FilledWith p.action p.label t x y) g₂ := by
      intro name
      apply (hfulfil name m.nextFrame).mono
      intro o g n hfilling
      obtain ⟨c, ho, hc, hg⟩ := hfilling.both hleft hright
      exact ⟨c, ho, hc.filledWith h, hg, hfilling.silent⟩
    have hinvoked : S.Shows (depth + 1) f (Evaluator.invoked m p) := (hm.enter hlimit _).note _
    obtain ⟨c, m₁, hrun, hc, hm₁, hquiet⟩ := Finds.run hfinds hinvoked
    have room : m.depth < m.config.maxDepth := by
      rw [hm.depth_eq, hm.maxDepth]
      exact hroom
    have hspent := hm₁.spent hunits hlast
    exact ⟨_, c, m₁, hc, rfl, hspent, Evaluator.invoke_embeds room hrun hquiet hspent⟩
  · intro hleft
    have := hfailed _ g₁ fun id => (hfulfil S.counted id).mono fun o g n hfilling => hfilling.left hleft
    rw [this]
    simp only [Feed.blame, hnear]
    rfl
  · intro hleft hright
    have := hfailed _ g₂ fun id => (hfulfil S.counted id).mono fun o g n hfilling =>
      hfilling.right hleft hright
    rw [this]
    simp only [Feed.blame, hlast]
    rfl

end Stage

/-! ### Code that is one call -/

namespace Evaluator

open Stage

variable {m : Machine} {s : ScopeId} {a : Action} {t : Sides} {name : String} {id : Identity}

theorem runUnits_callsOnce {ev inner : Evaluator} {p : PendingCall} {f : Feed} {x y near last : Value}
    {unit : Value} {rest : List Value} (ready : m.Ready) (hscope : s < m.scopes.next)
    (hcalls : ∀ m₁, (forCode m s).Shows (m.depth + 1) f m₁ →
      (inner.invoke m.feeds.size p).CallsOnce m₁ inner a name t x y m.feeds.size near last)
    (hstep : (forCode m s).Drains (m.depth + 1) f (inner.invoke m.feeds.size p) last →
      ∀ id, ∃ frame : Frame, frame.feed = m.feeds.size ∧ frame.out.last = none ∧
        (forCode m s).Embeds (m.depth + 1) { units := unit :: rest, scope := s }
          (ev.step { id, feed := m.feeds.size }) (m.depth + 1) f (inner.invoke m.feeds.size p)
          (Outcome.ofCall frame)) :
    (ev.runUnits (unit :: rest) s).CallsOnce m inner a name t x y m.feeds.size near last := by
  have hdrains : (forCode m s).Drains (m.depth + 1) f (inner.invoke m.feeds.size p) last :=
    fun m₁ _ _ hm₁ hrun => (hcalls m₁ hm₁).spent hrun
  obtain ⟨m₁, hm₁, hembeds⟩ := Embeds.runUnits ready hscope (hstep hdrains) hdrains
  exact (hcalls m₁ hm₁).around hembeds

variable (ready : m.Ready) (room : m.depth + 3 ≤ m.config.maxDepth) (hscope : s < m.scopes.next)
  (h : a.TakesTwo t) (hname : m.lookup s name = some (.action id a))

include ready room hscope h hname

theorem runUnits_behind (prefixed : a.enfixed = false) (x y : Value) (patience nesting : Nat) :
    Eval.CallsOnce (runUnits ⟨stepWithin patience (nesting + 2), patience⟩
        [.word name, x.quotedIfNeeded, y.quotedIfNeeded] s) m
      ⟨stepWithin patience (nesting + 1), patience⟩ a name t x y m.feeds.size x.quotedIfNeeded
      y.quotedIfNeeded := by
  have hx := literal_quotedIfNeeded x
  have hy := literal_quotedIfNeeded y
  let code : Feed := { units := [.word name, x.quotedIfNeeded, y.quotedIfNeeded], scope := s }
  refine runUnits_callsOnce (p := { action := a, label := name }) (f := code.advance) ready hscope
    (fun m₁ hm₁ => ?_) fun hdrains id => ⟨{ id, feed := m.feeds.size }, rfl, rfl, ?_⟩
  · have hroom : m.depth + 2 < m.config.maxDepth := by omega
    refine callsOnce h (Nat.lt_of_succ_lt hroom) (Nat.le_of_lt hroom) (fun counted id => ?_)
      (show code.advance.advance.lookback = some x.quotedIfNeeded from rfl)
      (show code.advance.advance.advance.units = [] from rfl) rfl hm₁
    refine Runs.fulfilBehind h prefixed rfl (Feed.atArgumentEnd_cons rfl hx.ne_comma) rfl
      (Feed.atArgumentEnd_cons rfl hy.ne_comma) rfl ?_ ?_
    · exact Gives.literalArgument patience nesting hroom hroom hx rfl rfl hy.ending
    · exact Gives.literalArgument patience nesting hroom hroom hy rfl rfl ending_none
  · refine .evalStep rfl rfl (by simp) hx.ending.unclaiming (.drive (by simp) (fun counted => ?_)
      (.processAction _ rfl hdrains))
    exact Gives.dispatchWord rfl trivial hname prefixed

theorem runUnits_between (enfixed : a.enfixed = true) (hfirst : a.firstArgument? = some t.left)
    (x y : Value) (patience nesting : Nat) :
    Eval.CallsOnce (runUnits ⟨stepWithin patience (nesting + 2), patience⟩
        [x.quotedIfNeeded, .word name, y.quotedIfNeeded] s) m
      ⟨stepWithin patience (nesting + 1), patience⟩ a name t x y m.feeds.size (.word name)
      y.quotedIfNeeded := by
  have hx := literal_quotedIfNeeded x
  have hy := literal_quotedIfNeeded y
  let code : Feed := { units := [x.quotedIfNeeded, .word name, y.quotedIfNeeded], scope := s }
  have hevaluates : a.quotesFirst = false := by
    simp [Action.quotesFirst, Action.firstParam?, hfirst, h.left, h.leftNormal, Role.isQuoting]
  have haction : (forCode m s).action? (some (.word name)) = some (name, a) := by
    have hnames : (forCode m s).names name = some (.action id a) := hname
    simp only [Stage.action?, hnames]
  have hgoes : ∀ counted, ((forCode m s).counting counted).Goes (some (.word name)) name a :=
    fun _ => ⟨trivial, haction, enfixed, hevaluates⟩
  refine runUnits_callsOnce (p := { action := a, label := name, left := some x })
    (f := code.advance.advance) ready hscope (fun m₁ hm₁ => ?_) fun hdrains id =>
      ⟨{ id, feed := m.feeds.size, out := ⟨none, true⟩ }, rfl, rfl, ?_⟩
  · have hroom : m.depth + 2 < m.config.maxDepth := by omega
    refine callsOnce h (Nat.lt_of_succ_lt hroom) (Nat.le_of_lt hroom) (fun counted id => ?_)
      (show code.advance.advance.lookback = some (.word name) from rfl)
      (show code.advance.advance.advance.units = [] from rfl) rfl hm₁
    refine Runs.fulfilBetween h hfirst rfl (Feed.atArgumentEnd_cons rfl hy.ne_comma) rfl ?_
    rw [enfixed]
    exact Gives.literalOperand hroom hroom hy rfl rfl ending_none.unclaiming
  · refine .evalStep rfl rfl hx.ne_comma (hgoes "").unclaiming (.drive (by simp)
      (fun _ => Gives.dispatchLiteral rfl hx) (.drive (by simp) (fun counted => ?_)
        (.processAction _ rfl hdrains)))
    exact Gives.takes rfl (hgoes counted) rfl rfl rfl

end Evaluator

end Homoicon
