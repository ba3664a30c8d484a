import Mathlib.Data.List.Nodup
import Mathlib.Logic.Function.Basic
import Homoicon.Proofs.Passes
import Homoicon.Proofs.Stage.Steps

/-!
# Calls on a stage

Calls of actions whose arguments are evaluated and may be anything.  Other parameters may be there
as long as they take no argument: variables of the body, the return, refinements that are not in
use.  All slots but one are filled without a look at the code; for that one an expression is
evaluated.
-/

namespace Homoicon

/-- A parameter that takes an argument wherever its action is called. -/
def Param.IsArgument (p : Param) : Prop := p.role.takesArgument = true ∧ p.owner = none

/-- An evaluated argument of any kind. -/
structure Param.IsAnything (p : Param) : Prop where
  role : p.role = .normal
  owner : p.owner = none
  accepts : ∀ v, p.types.accepts v = true

theorem Param.IsAnything.isArgument {p : Param} (h : p.IsAnything) : p.IsArgument :=
  ⟨by rw [h.role]; rfl, h.owner⟩

/-- The parameters at the given positions take any evaluated argument; no other parameter takes an
argument, and no slot is filled beforehand. -/
structure Action.TakesAt (a : Action) (positions : List Nat) : Prop where
  preset : ∀ i, a.preset? i = none
  anything : ∀ i ∈ positions, ∃ p, a.params[i]? = some p ∧ p.IsAnything
  only : ∀ i p, a.params[i]? = some p → p.IsArgument → i ∈ positions

namespace CallState

/-- The slots of a call so far: those of arguments are filled with what is given, and no refinement
is in use. -/
structure Given (c : CallState) (a : Action) (label : String) (given : Nat → Option Value) :
    Prop where
  action : c.action = a
  label : c.label = label
  requests : c.requests = []
  pickups : c.pickups = []
  modalOn : c.modalOn = []
  length : c.slots.length = a.params.length
  filled : ∀ i p, a.params[i]? = some p → p.IsArgument → c.isFilled i = (given i).isSome
  slot : ∀ i p v, a.params[i]? = some p → p.IsArgument → given i = some v → c.slot i = v

namespace Given

variable {c : CallState} {a : Action} {label : String} {given : Nat → Option Value} {i : Nat}

theorem start {p : PendingCall} (h : p.requests = []) :
    (CallState.start p).Given p.action p.label fun _ => none where
  action := rfl
  label := rfl
  requests := by
    show p.requests.map _ = []
    rw [h]
    rfl
  pickups := rfl
  modalOn := rfl
  length := by simp [CallState.start]
  filled _ _ _ _ := rfl
  slot _ _ _ _ _ h := by cases h

theorem fillIdle (h : c.Given a label given) (v : Value)
    (hidle : ∀ p, a.params[i]? = some p → ¬p.IsArgument) : (c.fill i v).Given a label given where
  action := h.action
  label := h.label
  requests := h.requests
  pickups := h.pickups
  modalOn := h.modalOn
  length := by
    rw [← h.length]
    exact List.length_set
  filled j p hp harg := by
    have hne : j ≠ i := by
      rintro rfl
      exact hidle p hp harg
    rw [← h.filled j p hp harg]
    simp [CallState.isFilled, CallState.fill, hne]
  slot j p w hp harg hw := by
    have hne : j ≠ i := by
      rintro rfl
      exact hidle p hp harg
    rw [slot_fill_of_ne v hne]
    exact h.slot j p w hp harg hw

theorem fillIdles {indices : List Nat} (h : c.Given a label given)
    (hidle : ∀ i ∈ indices, ∀ p, a.params[i]? = some p → ¬p.IsArgument) :
    (indices.foldl (fun c i => c.fill i .null) c).Given a label given := by
  induction indices generalizing c with
  | nil => exact h
  | cons i rest ih =>
    have hrest : ∀ j ∈ rest, ∀ p, a.params[j]? = some p → ¬p.IsArgument :=
      fun j hj => hidle j (List.mem_cons_of_mem i hj)
    exact ih (h.fillIdle .null (hidle i List.mem_cons_self)) hrest

theorem fillArgument {p : Param} (h : c.Given a label given) (v : Value)
    (hp : a.params[i]? = some p) :
    (c.fill i v).Given a label (Function.update given i (some v)) where
  action := h.action
  label := h.label
  requests := h.requests
  pickups := h.pickups
  modalOn := h.modalOn
  length := by
    rw [← h.length]
    exact List.length_set
  filled j q hq harg := by
    by_cases hji : j = i
    · subst hji
      simp [CallState.isFilled, CallState.fill]
    · have hj := h.filled j q hq harg
      rw [Function.update_of_ne hji, ← hj]
      simp [CallState.isFilled, CallState.fill, hji]
  slot j q w hq harg hw := by
    by_cases hji : j = i
    · subst hji
      rw [Function.update_self] at hw
      have hlt : j < c.slots.length := by
        rw [h.length]
        exact (List.getElem?_eq_some_iff.1 hp).1
      rw [slot_fill_self v hlt]
      exact Option.some.inj hw
    · rw [Function.update_of_ne hji] at hw
      rw [slot_fill_of_ne v hji]
      exact h.slot j q w hq harg hw

theorem noteRefinement {p : Param} (h : c.Given a label given) (hpreset : ∀ i, a.preset? i = none)
    (hp : a.params[i]? = some p) (hrole : p.role = .refinement) :
    ∃ c', Evaluator.noteRefinement c p i = .ok c' ∧ c'.Given a label given := by
  have hopen : c.action.preset? i = none := h.action ▸ hpreset i
  have hrequested : Evaluator.isRequested c p = false := by
    simp [Evaluator.isRequested, h.requests]
  have hunused : Evaluator.isInUse c p i = false := by
    simp [Evaluator.isInUse, hrequested, hopen, h.modalOn]
  have hself : ∀ q, a.params[i]? = some q → ¬q.IsArgument := by
    rintro q hq ⟨htakes, -⟩
    obtain rfl : p = q := Option.some.inj (hp.symm.trans hq)
    rw [hrole] at htakes
    cases htakes
  have howned : ∀ j ∈ c.action.refinementArguments i, ∀ q, a.params[j]? = some q → ¬q.IsArgument := by
    rintro j hj q hq ⟨-, howner⟩
    obtain ⟨q', hq', howned⟩ := Action.mem_refinementArguments.1 hj
    rw [h.action] at hq'
    obtain rfl : q = q' := Option.some.inj (hq.symm.trans hq')
    rw [howner] at howned
    cases howned
  have hmatched : { c with requests := Evaluator.matchRequest p.name c.requests } = c := by
    rw [h.requests]
    cases c
    cases h.requests
    rfl
  unfold Evaluator.noteRefinement
  simp only [hrequested, hunused, Bool.false_and, Bool.false_eq_true, if_false, hmatched]
  exact ⟨_, rfl, (h.fillIdle .null hself).fillIdles howned⟩

end Given

end CallState

/-- A fault with its places, as a call gives it to those around it. -/
def Feed.blame (f : Feed) (label : String) (e : Fault) : Fault :=
  match f.lookback with
  | some unit => (e.inCall label).nearUnit unit.mold
  | none => e.inCall label

/-- The fault with the unit consumed last, unless it has one. -/
def Feed.near (f : Feed) (e : Fault) : Fault :=
  match f.lookback with
  | some unit => e.nearUnit unit.mold
  | none => e

theorem Feed.blame_eq (f : Feed) (label : String) (e : Fault) :
    f.blame label e = f.near (e.inCall label) := rfl

theorem Feed.blame_blame {f : Feed} {unit : Value} (h : f.lookback = some unit)
    (outer inner : String) (e : Fault) : f.blame outer (f.blame inner e) = f.blame inner e := by
  simp only [Feed.blame, h]
  cases hlabel : e.label <;> cases hnear : e.near <;>
    simp [Fault.inCall, Fault.nearUnit, hlabel, hnear]

def Outcome.blamed {α : Type} (f : Feed) (label : String) : Outcome α → Outcome α
  | .failed e => .failed (f.blame label e)
  | o => o

def Outcome.ofResult : Except Fault Value → Outcome (Option Value)
  | .ok v => .done (some v)
  | .error e => .failed e

theorem zipIdx_split {α : Type} {xs : List α} {i : Nat} {x : α} (h : xs[i]? = some x) :
    ∃ before after, xs.zipIdx = before ++ (x, i) :: after ∧ ∀ e ∈ before ++ after, e.2 ≠ i := by
  have hmem : (x, i) ∈ xs.zipIdx := List.mem_zipIdx_iff_getElem?.2 h
  obtain ⟨before, after, hsplit⟩ := List.append_of_mem hmem
  refine ⟨before, after, hsplit, ?_⟩
  have hnodup : (xs.zipIdx.map Prod.snd).Nodup := by
    rw [List.zipIdx_map_snd]
    exact List.nodup_range'
  rw [hsplit, List.map_append, List.map_cons, List.nodup_middle, List.nodup_cons] at hnodup
  rintro e he rfl
  apply hnodup.1
  rw [← List.map_append]
  exact List.mem_map.2 ⟨e, he, rfl⟩

namespace Stage

variable {S : Stage} {depth : Nat} {f g : Feed} {ev : Evaluator} {frame : Frame} {a : Action}
  {label : String} {given : Nat → Option Value} {c : CallState}

/-! ### Slots -/

/-- Filling the slots of parameters that take no argument, or took theirs, looks at no code. -/
theorem Finds.mainPassIdle {entries : List (Param × Nat)} (hpreset : ∀ i, a.preset? i = none)
    (hentries : ∀ e ∈ entries, a.params[e.2]? = some e.1)
    (hidle : ∀ e ∈ entries, e.1.IsArgument → (given e.2).isSome = true)
    (hc : c.Given a label given) :
    S.Finds depth f (ev.mainPass frame entries c) (fun c' => c'.Given a label given) f := by
  induction entries generalizing c with
  | nil => exact Runs.pure ⟨c, rfl, hc, rfl, rfl⟩
  | cons entry rest ih =>
    obtain ⟨p, i⟩ := entry
    have hp : a.params[i]? = some p := hentries (p, i) List.mem_cons_self
    have hidle' : p.IsArgument → (given i).isSome = true := hidle (p, i) List.mem_cons_self
    have next : ∀ c' : CallState, c'.Given a label given →
        S.Finds depth f (ev.mainPass frame rest c') (fun c' => c'.Given a label given) f :=
      fun c' => ih (fun e he => hentries e (List.mem_cons_of_mem _ he))
        fun e he => hidle e (List.mem_cons_of_mem _ he)
    unfold Evaluator.mainPass
    split
    · exact next c hc
    · rename_i hopen
      simp only [Bool.or_eq_true, not_or, Bool.not_eq_true] at hopen
      obtain ⟨hunfilled, howner⟩ := hopen
      have hnot : ¬p.IsArgument := by
        intro harg
        rw [hc.filled i p hp harg, hidle' harg] at hunfilled
        cases hunfilled
      have hfill : ∀ v, (c.fill i v).Given a label given := by
        intro v
        apply hc.fillIdle v
        intro q hq
        obtain rfl : p = q := Option.some.inj (hp.symm.trans hq)
        exact hnot
      split
      · rename_i hrole
        obtain ⟨c', hnoted, hc'⟩ := hc.noteRefinement hpreset hp (by simpa using hrole)
        rw [hnoted]
        exact next c' hc'
      · rename_i hrole
        have hfilled : S.Finds depth f (ev.fillParam frame c p i)
            (fun c' => c'.Given a label given) f := by
          have hopen : c.action.preset? i = none := hc.action ▸ hpreset i
          have htakes : p.role.takesArgument = false := by
            by_contra htakes
            exact hnot ⟨by simpa using htakes, by simpa using howner⟩
          unfold Evaluator.fillParam
          rw [hopen]
          cases hr : p.role with
          | localWord => exact Runs.pure ⟨_, rfl, hfill _, rfl, rfl⟩
          | returns =>
            apply Finds.andThen (Finds.returnAction frame.id)
            intro v _
            exact Runs.pure ⟨_, rfl, hfill _, rfl, rfl⟩
          | refinement => exact absurd (by simp [hr]) hrole
          | _ =>
            rw [hr] at htakes
            cases htakes
        exact hfilled.andThen next

theorem Runs.gather {i : Nat} {p : Param} {Q : Outcome (Option Value) → Feed → Nat → Prop}
    {R : Outcome (Option Value × CallState) → Feed → Nat → Prop} (hrole : p.role = .normal)
    (hmore : f.atArgumentEnd = false) (hdeferring : f.deferring = false)
    (hargument : S.Runs depth (f.kept c.action.enfixed) (ev.evalExpression S.feed true) Q)
    (hsome : ∀ g n, ¬Q (.done none) g n) (hbreaks : Breaks Q R)
    (hdone : ∀ v g n, Q (.done (some v)) g n → R (.done (some v, c)) g n) :
    S.Runs depth f (ev.gather S.feed c p i) R := by
  obtain ⟨unit, rest, hunits⟩ : ∃ unit rest, f.units = unit :: rest := by
    unfold Feed.atArgumentEnd Feed.isEnd at hmore
    cases hunits : f.units with
    | nil => simp [hunits] at hmore
    | cons unit rest => exact ⟨unit, rest, rfl⟩
  have hgathered : S.Runs depth f (ev.gatherEvaluated S.feed c p) Q := by
    apply (Gives.keep c.action.enfixed).andThen
    apply Runs.bind hargument (.refl Q)
    intro v? g n hq
    cases v? with
    | none => exact absurd hq (hsome g n)
    | some v => exact Runs.pure hq
  unfold Evaluator.gather
  apply Gives.atArgumentEnd.andThen
  rw [hmore]
  apply Gives.deferring.andThen
  rw [hdeferring]
  apply Gives.peek.andThen
  rw [Feed.peek, hunits, List.head?_cons]
  simp only [hrole]
  apply Runs.bind hgathered hbreaks
  intro v? g n hq
  cases v? with
  | none => exact absurd hq (hsome g n)
  | some v => exact Runs.pure (hdone v g n hq)

theorem Runs.fillNormal {i : Nat} {p : Param} {Q : Outcome (Option Value) → Feed → Nat → Prop}
    {R : Outcome CallState → Feed → Nat → Prop} (hframe : frame.feed = S.feed)
    (hpreset : c.action.preset? i = none) (hrole : p.role = .normal)
    (hmore : f.atArgumentEnd = false) (hdeferring : f.deferring = false)
    (hargument : S.Runs depth (f.kept c.action.enfixed) (ev.evalExpression S.feed true) Q)
    (hsome : ∀ g n, ¬Q (.done none) g n) (hbreaks : Breaks Q R)
    (hdone : ∀ v g n, Q (.done (some v)) g n →
      R (match checkUnless p.owner.isSome c.label p v with
        | .ok _ => .done (c.fill i v)
        | .error e => .failed e) g n) :
    S.Runs depth f (ev.fillParam frame c p i) R := by
  have hgather : S.Runs depth f (ev.gather frame.feed c p i)
      (After Q fun taken g n => ∃ v, taken = (some v, c) ∧ Q (.done (some v)) g n) := by
    rw [hframe]
    apply Runs.gather hrole hmore hdeferring hargument hsome (.intro _ _)
    exact fun v g n hq => ⟨v, rfl, hq⟩
  unfold Evaluator.fillParam
  rw [hpreset, hrole]
  apply Runs.bind hgather (hbreaks.after _)
  rintro _ g n ⟨v, rfl, hq⟩
  have hv := hdone v g n hq
  cases hchecked : checkUnless p.owner.isSome c.label p v with
  | ok u =>
    rw [hchecked] at hv
    simp only [hchecked]
    exact Runs.pure hv
  | error e =>
    rw [hchecked] at hv
    simp only [hchecked]
    exact Runs.fail (Q := fun o g' n' => R o g' (n + n')) hv

theorem Finds.noLeft {p : PendingCall} (hrequests : p.requests = []) :
    S.Finds depth f (Evaluator.fillLeft? (CallState.start p) none)
      (fun c => c.Given p.action p.label fun _ => none) f :=
  Runs.pure ⟨_, rfl, .start hrequests, rfl, rfl⟩

theorem Finds.left {p : PendingCall} {i : Nat} {q : Param} {v : Value} (hrequests : p.requests = [])
    (hfirst : p.action.firstArgument? = some i) (hq : p.action.params[i]? = some q)
    (hrole : q.role = .normal) (haccepts : q.types.accepts v = true) :
    S.Finds depth f (Evaluator.fillLeft? (CallState.start p) (some v))
      (fun c => c.Given p.action p.label (Function.update (fun _ => none) i (some v))) f := by
  have hfirst' : (CallState.start p).action.firstArgument? = some i := hfirst
  have hq' : (CallState.start p).action.params[i]? = some q := hq
  have hchecked : checkUnless q.types.endable (CallState.start p).label q v = .ok () := by
    simp [checkUnless, checkType, haccepts]
  unfold Evaluator.fillLeft? Evaluator.fillLeft
  simp only [hfirst', hq', Evaluator.leftArgument, hrole]
  show S.Finds depth f (Eval.ofExcept (checkUnless q.types.endable (CallState.start p).label q v) >>=
    fun _ => pure ((CallState.start p).fill i v)) _ f
  rw [hchecked]
  exact Runs.pure ⟨_, rfl, (CallState.Given.start hrequests).fillArgument v hq, rfl, rfl⟩

/-- The pass over the parameters looks at no code until it comes to an argument that is open.  It
evaluates and checks that one and goes on behind it. -/
theorem Runs.mainPassArgument {before after : List (Param × Nat)} {p : Param} {i : Nat}
    {Q : Outcome (Option Value) → Feed → Nat → Prop} {R : Outcome CallState → Feed → Nat → Prop}
    (hframe : frame.feed = S.feed) (hpreset : ∀ i, a.preset? i = none)
    (hentries : ∀ e ∈ before ++ (p, i) :: after, a.params[e.2]? = some e.1)
    (hidle : ∀ e ∈ before, e.1.IsArgument → (given e.2).isSome = true)
    (hc : c.Given a label given) (hopen : given i = none) (hrole : p.role = .normal)
    (howner : p.owner = none) (hmore : f.atArgumentEnd = false) (hdeferring : f.deferring = false)
    (hargument : S.Runs depth (f.kept a.enfixed) (ev.evalExpression S.feed true) Q)
    (hsome : ∀ g n, ¬Q (.done none) g n) (hbreaks : Breaks Q R)
    (hrefused : ∀ v g n, Q (.done (some v)) g n → p.types.accepts v = false →
      R (.failed (.of (.wrongType label p.name v.kind))) g n)
    (hrest : ∀ v g n c', Q (.done (some v)) g n → p.types.accepts v = true →
      c'.Given a label (Function.update given i (some v)) →
        S.Runs depth g (ev.mainPass frame after c') fun o g' n' => R o g' (n + n')) :
    S.Runs depth f (ev.mainPass frame (before ++ (p, i) :: after) c) R := by
  have hp : a.params[i]? = some p :=
    hentries (p, i) (List.mem_append_right _ List.mem_cons_self)
  rw [Evaluator.mainPass_append]
  apply Finds.andThen (Finds.mainPassIdle hpreset
    (fun e he => hentries e (List.mem_append_left _ he)) hidle hc)
  intro c₁ hc₁
  have hunfilled : c₁.isFilled i = false := by
    rw [hc₁.filled i p hp ⟨by rw [hrole]; rfl, howner⟩, hopen]
    rfl
  simp only [Evaluator.mainPass, hunfilled, howner, hrole, Option.isSome_none,
    Bool.or_self, Bool.false_eq_true, if_false]
  have hfilled : S.Runs depth f (ev.fillParam frame c₁ p i)
      (After R fun c₂ g n => ∃ v, Q (.done (some v)) g n ∧ p.types.accepts v = true ∧
        c₂.Given a label (Function.update given i (some v))) := by
    apply Runs.fillNormal hframe (hc₁.action ▸ hpreset i) hrole hmore hdeferring
      (hc₁.action ▸ hargument) hsome
    · exact ⟨hbreaks.thrown, hbreaks.failed, hbreaks.exhausted⟩
    · intro v g n hq
      simp only [checkUnless, checkType, howner, Option.isSome_none, Bool.and_false,
        Bool.false_eq_true, if_false, hc₁.label]
      cases haccepts : p.types.accepts v with
      | true => exact ⟨v, hq, haccepts, hc₁.fillArgument v hp⟩
      | false => exact hrefused v g n hq haccepts
  apply Runs.bind hfilled ((Breaks.refl R).after _)
  rintro c₂ g n ⟨v, hq, haccepts, hc₂⟩
  exact hrest v g n c₂ hq haccepts hc₂

theorem Runs.mainPass {positions : List Nat} {i : Nat}
    {Q : Outcome (Option Value) → Feed → Nat → Prop} (hframe : frame.feed = S.feed)
    (ht : a.TakesAt positions) (hi : i ∈ positions) (hc : c.Given a label given)
    (hopen : given i = none) (hothers : ∀ j ∈ positions, j ≠ i → (given j).isSome = true)
    (hmore : f.atArgumentEnd = false) (hdeferring : f.deferring = false)
    (hargument : S.Runs depth (f.kept a.enfixed) (ev.evalExpression S.feed true) Q)
    (hsome : ∀ g n, ¬Q (.done none) g n) :
    S.Runs depth f (ev.mainPass frame a.params.zipIdx c)
      (After Q fun c' g n => ∃ v, Q (.done (some v)) g n ∧
        c'.Given a label (Function.update given i (some v))) := by
  obtain ⟨q, hq, hany⟩ := ht.anything i hi
  obtain ⟨before, after, hsplit, hne⟩ := zipIdx_split hq
  have hmem : ∀ e ∈ before ++ (q, i) :: after, a.params[e.2]? = some e.1 := by
    rw [← hsplit]
    exact fun e he => List.mem_zipIdx_iff_getElem?.1 he
  have hgiven : ∀ e ∈ before ++ after, e.1.IsArgument → (given e.2).isSome = true := by
    intro e he harg
    have hparam : a.params[e.2]? = some e.1 := by
      apply hmem
      rcases List.mem_append.1 he with he | he
      · exact List.mem_append_left _ he
      · exact List.mem_append_right _ (List.mem_cons_of_mem _ he)
    exact hothers e.2 (ht.only e.2 e.1 hparam harg) (hne e he)
  -- the slot at `i` is filled between two stretches that look at no code
  rw [hsplit]
  refine Runs.mainPassArgument hframe ht.preset hmem
    (fun e he => hgiven e (List.mem_append_left _ he)) hc hopen hany.role hany.owner hmore hdeferring
    hargument hsome (.intro _ _) ?_ ?_
  · intro v g n _ hrefused
    rw [hany.accepts v] at hrefused
    cases hrefused
  · intro v g n c₂ hv _ hc₂
    have hrest : S.Finds depth g (ev.mainPass frame after c₂)
        (fun c => c.Given a label (Function.update given i (some v))) g := by
      apply Finds.mainPassIdle ht.preset
      · exact fun e he => hmem e (List.mem_append_right _ (List.mem_cons_of_mem _ he))
      · intro e he harg
        rw [Function.update_of_ne (hne e (List.mem_append_right _ he))]
        exact hgiven e (List.mem_append_right _ he) harg
      · exact hc₂
    apply hrest.mono
    rintro o g' n' ⟨c₃, rfl, hc₃, rfl, rfl⟩
    exact ⟨v, hv, hc₃⟩

/-- No refinement is asked for, so that the first pass over the parameters fills all slots. -/
theorem Runs.fulfilPass {p : PendingCall} {R : Outcome CallState → Feed → Nat → Prop}
    (hstart : S.Finds depth f (Evaluator.fillLeft? (CallState.start p) p.left)
      (fun c => c.Given p.action p.label given) f)
    (hpass : ∀ c : CallState, c.Given p.action p.label given →
      S.Runs depth f (ev.mainPass frame p.action.params.zipIdx c) R)
    (hgiven : ∀ c g n, R (.done c) g n → ∃ given', c.Given p.action p.label given') :
    S.Runs depth f (ev.fulfil frame p.left (CallState.start p)) R := by
  unfold Evaluator.fulfil
  apply hstart.andThen
  intro c hc
  rw [hc.action]
  apply Runs.bind (hpass c hc) ⟨fun _ _ _ h => h, fun _ _ _ h => h, fun _ _ h => h⟩
  intro c' g n hr
  obtain ⟨given', hc'⟩ := hgiven c' g n hr
  have hchecked : Evaluator.checkRequests c' = .ok () := by
    simp [Evaluator.checkRequests, hc'.requests]
  rw [hchecked, hc'.pickups]
  exact Runs.pure hr

theorem Runs.fulfil {p : PendingCall} {positions : List Nat} {i : Nat}
    {Q : Outcome (Option Value) → Feed → Nat → Prop} {R : Outcome CallState → Feed → Nat → Prop}
    (hframe : frame.feed = S.feed) (ht : p.action.TakesAt positions) (hi : i ∈ positions)
    (hstart : S.Finds depth f (Evaluator.fillLeft? (CallState.start p) p.left)
      (fun c => c.Given p.action p.label given) f)
    (hopen : given i = none) (hothers : ∀ j ∈ positions, j ≠ i → (given j).isSome = true)
    (hmore : f.atArgumentEnd = false) (hdeferring : f.deferring = false)
    (hargument : S.Runs depth (f.kept p.action.enfixed) (ev.evalExpression S.feed true) Q)
    (hsome : ∀ g n, ¬Q (.done none) g n) (hbreaks : Breaks Q R)
    (hdone : ∀ v g n c, Q (.done (some v)) g n →
      c.Given p.action p.label (Function.update given i (some v)) → R (.done c) g n) :
    S.Runs depth f (ev.fulfil frame p.left (CallState.start p)) R := by
  refine (Runs.fulfilPass hstart
    (fun c hc => Runs.mainPass hframe ht hi hc hopen hothers hmore hdeferring hargument hsome)
    fun c g n ⟨v, _, hc⟩ => ⟨_, hc⟩).mono ?_
  intro o g n hr
  cases o with
  | done c =>
    obtain ⟨v, hv, hc⟩ := hr
    exact hdone v g n c hv hc
  | thrown s => exact hbreaks.thrown s g n hr
  | failed e => exact hbreaks.failed e g n hr
  | exhausted => exact hbreaks.exhausted g n hr

/-! ### Calls -/

theorem Runs.invoke {p : PendingCall} {Q : Outcome CallState → Feed → Nat → Prop}
    {R R' : Outcome (Option Value) → Feed → Nat → Prop} (hroom : depth < S.maxDepth)
    (hlimit : depth + 1 ≤ S.limit)
    (hfulfil : ∀ id, S.Runs (depth + 1) f
      (ev.fulfil { id, feed := S.feed } p.left (CallState.start p)) Q)
    (hbreaks : Breaks Q R)
    (hrun : ∀ id c g n, Q (.done c) g n → S.Runs (depth + 1) g
      (ev.runFilled { id, feed := S.feed } (p.action.adaptations + 1 + ev.patience) c)
      fun o g' n' => R o g' (n + n'))
    (hR : ∀ o g n, R o g n → R' (o.blamed g p.label) g ((if p.label = S.counted then 1 else 0) + n)) :
    S.Runs depth f (ev.invoke S.feed p) R' := by
  let called := if p.label = S.counted then 1 else 0
  have hframe : S.Runs depth f
      (Homoicon.withFrame S.feed (some p.label) fun frame => ev.runCall frame p)
      fun o g n => ∃ o' n', R o' g n' ∧ o = o'.leave (some p.label) ∧ n = called + n' := by
    apply Runs.withFrame hroom hlimit
    intro id
    have hnote : S.Runs (depth + 1) f (Eval.note (.invoked p.label id p.left.isSome))
        fun o g n => o = .done () ∧ g = f ∧ n = called := by
      apply Runs.command
      intro m hm
      refine ⟨f, hm.note _, rfl, rfl, ?_⟩
      simp [Moment.calls, called]
    apply Runs.bind hnote ⟨by simp, by simp, by simp⟩
    rintro _ g n ⟨-, rfl, rfl⟩
    apply Runs.bind (hfulfil id)
    · refine ⟨?_, ?_, ?_⟩
      · exact fun s g n hq => ⟨_, n, hbreaks.thrown s g n hq, rfl, rfl⟩
      · exact fun e g n hq => ⟨_, n, hbreaks.failed e g n hq, rfl, rfl⟩
      · exact fun g n hq => ⟨_, n, hbreaks.exhausted g n hq, rfl, rfl⟩
    · intro c g n hq
      apply (hrun id c g n hq).mono
      exact fun o g' n' hr => ⟨o, n + n', hr, rfl, rfl⟩
  unfold Evaluator.invoke
  apply hframe.mapFault Feed.near
  · intro g e
    apply Gives.lookback.andThen
    unfold Feed.near
    cases g.lookback <;> exact Gives.pure _
  · rintro e g _ ⟨o', n', hr, ho, rfl⟩
    cases o' with
    | failed e =>
      cases ho
      rw [Fault.inCall?, ← Feed.blame_eq]
      exact hR _ g n' hr
    | _ => cases ho
  · rintro o g _ hne ⟨o', n', hr, rfl, rfl⟩
    cases o' with
    | failed e => exact absurd rfl (hne _)
    | _ => exact hR _ g n' hr

/-- Calls of the action whose slots are filled end as `R` says of their slots, of their outcome and of
the counted calls they make themselves.  They need no more than `need` further frames and leave the
feed and the values of known words alone. -/
def Serves (S : Stage) (patience need : Nat) (a : Action) (label : String)
    (R : CallState → Outcome (Option Value) → Nat → Prop) : Prop :=
  ∀ nesting depth f id c, need ≤ nesting → depth + need ≤ S.maxDepth → depth + need ≤ S.limit →
    c.action = a → c.label = label →
      S.Runs depth f (Evaluator.runFilled ⟨stepWithin patience nesting, patience⟩
        { id, feed := S.feed } (a.adaptations + 1 + patience) c) fun o g n => R c o n ∧ g = f

/-- Operations that compute their result from the slots serve calls without a frame of their own. -/
theorem serves_native {patience : Nat} {n : Native} {result : CallState → Except Fault Value}
    (hd : a.dispatcher = .native n)
    (hrun : ∀ ev frame c, n.operation.run ev { frame, state := c } =
      (Eval.ofExcept (result c) >>= fun v => pure (.out v))) :
    S.Serves patience 0 a label fun c o n => o = .ofResult (result c) ∧ n = 0 := by
  intro nesting depth f id c _ _ _ hc _
  have hfuel : a.adaptations + 1 + patience = a.adaptations + patience + 1 := by omega
  rw [hfuel]
  unfold Evaluator.runFilled Evaluator.runDispatcher
  rw [hc, hd]
  simp only [Eval.bind_assoc]
  apply (Gives.mark _).andThen
  rw [hrun]
  cases result c with
  | ok v => exact Runs.pure ⟨⟨rfl, rfl⟩, rfl⟩
  | error e => exact Runs.fail (Q := fun o g n => (o = .failed e ∧ n = 0) ∧ g = f) ⟨⟨rfl, rfl⟩, rfl⟩

theorem Serves.more {patience need need' : Nat}
    {R : CallState → Outcome (Option Value) → Nat → Prop} (h : S.Serves patience need a label R)
    (hle : need ≤ need') : S.Serves patience need' a label R :=
  fun nesting depth f id c hneed hroom hlimit =>
    h nesting depth f id c (by omega) (by omega) (by omega)

/-! ### Calls in a step -/

theorem Runs.processAction {p : PendingCall} {fuel : Nat}
    {Q : Outcome (Option Value) → Feed → Nat → Prop} {R : Outcome Stepped → Feed → Nat → Prop}
    (hframe : frame.feed = S.feed) (hinvoke : S.Runs depth f (ev.invoke S.feed p) Q)
    (hvalue : ∀ v g n, Q (.done (some v)) g n →
      S.Runs depth g (ev.drive fuel { frame with out := frame.out.set v } .postSwitch)
        fun o g' n' => R o g' (n + n'))
    (hnothing : ∀ g n, Q (.done none) g n →
      S.Runs depth g (ev.drive fuel { frame with out := frame.out.markStale } .postSwitch)
        fun o g' n' => R o g' (n + n'))
    (hthrown : ∀ s g n, Q (.thrown s) g n → R (.done { frame, signal := some s }) g n)
    (hfailed : ∀ e g n, Q (.failed e) g n → R (.failed e) g n)
    (hexhausted : ∀ g n, Q .exhausted g n → R .exhausted g n) :
    S.Runs depth f (ev.drive (fuel + 1) frame (.processAction p)) R := by
  have htransition : S.Runs depth f (ev.transition frame (.processAction p))
      (After Q fun next g n => ∃ v?, Q (.done v?) g n ∧ next =
        ({ frame with out := v?.elim frame.out.markStale frame.out.set }, .postSwitch)) := by
    have hinvoke' : S.Runs depth f (ev.invoke frame.feed p) Q := by
      rw [hframe]
      exact hinvoke
    apply Runs.bind hinvoke' (.intro _ _)
    intro v? g n hq
    cases v? with
    | none => exact Runs.pure ⟨none, hq, rfl⟩
    | some v => exact Runs.pure ⟨some v, hq, rfl⟩
  apply Runs.drive (by simp) htransition hthrown hfailed hexhausted
  rintro frame' state' g n ⟨v?, hq, hnext⟩
  cases hnext
  cases v? with
  | none => exact hnothing g n hq
  | some v => exact hvalue v g n hq

end Stage

/-- A word that calls an action with one evaluated argument, whose value is computed from it. -/
structure Prefix where
  name : String
  identity : Identity
  action : Action
  position : Nat
  apply : Value → Value

/-- The word calls the action, which serves within `need` frames. -/
structure Prefix.On (q : Prefix) (S : Stage) (patience need : Nat) : Prop where
  known : S.known q.name
  names : S.names q.name = some (.action q.identity q.action)
  enfixed : q.action.enfixed = false
  takes : q.action.TakesAt [q.position]
  serves : S.Serves patience need q.action q.name fun c o n =>
    o = .done (some (q.apply (c.slot q.position))) ∧ n = 0
  uncounted : q.name ≠ S.counted

/-- A word that calls an enfixed action with two evaluated arguments. -/
structure Infix where
  name : String
  identity : Identity
  action : Action
  left : Nat
  right : Nat
  /-- What a call may come to, by its operands, and how many counted calls it may make itself. -/
  answers : Value → Value → Outcome (Option Value) → Nat → Prop

structure Infix.On (q : Infix) (S : Stage) (patience need : Nat) : Prop where
  known : S.known q.name
  names : S.names q.name = some (.action q.identity q.action)
  enfixed : q.action.enfixed = true
  takes : q.action.TakesAt [q.left, q.right]
  first : q.action.firstArgument? = some q.left
  distinct : q.left ≠ q.right
  serves : S.Serves patience need q.action q.name fun c o n =>
    q.answers (c.slot q.left) (c.slot q.right) o n
  visible : ∀ x y n, ¬q.answers x y (.done none) n

theorem Action.TakesAt.argument {a : Action} {positions : List Nat} (h : a.TakesAt positions)
    {i : Nat} (hi : i ∈ positions) : ∃ p, a.params[i]? = some p ∧ p.IsArgument := by
  obtain ⟨p, hp, hany⟩ := h.anything i hi
  exact ⟨p, hp, hany.isArgument⟩

theorem Infix.On.evaluates {q : Infix} {S : Stage} {patience need : Nat} (h : q.On S patience need) :
    q.action.quotesFirst = false := by
  obtain ⟨p, hp, hany⟩ := h.takes.anything q.left List.mem_cons_self
  simp [Action.quotesFirst, Action.firstParam?, h.first, hp, hany.role, Role.isQuoting]

theorem Prefix.On.ending {q : Prefix} {S : Stage} {patience need : Nat} (h : q.On S patience need) :
    S.Ending (some (.word q.name)) where
  known := h.known
  prefixed name a ha := by
    simp only [Stage.action?, h.names] at ha
    cases ha
    exact h.enfixed

theorem Infix.On.goes {q : Infix} {S : Stage} {patience need : Nat} (h : q.On S patience need) :
    S.Goes (some (.word q.name)) q.name q.action where
  known := h.known
  action := by simp only [Stage.action?, h.names]
  enfixed := h.enfixed
  evaluates := h.evaluates

namespace Stage

theorem Runs.invokePrefix {q : Prefix} {patience need nesting : Nat}
    {Q : Outcome (Option Value) → Feed → Nat → Prop} (hq : q.On S patience need)
    (hneed : need ≤ nesting) (hroom : depth + 1 + need ≤ S.maxDepth)
    (hlimit : depth + 1 + need ≤ S.limit) (hmore : f.atArgumentEnd = false)
    (hdeferring : f.deferring = false)
    (hargument : S.Runs (depth + 1) f
      (Evaluator.evalExpression ⟨stepWithin patience nesting, patience⟩ S.feed true) Q)
    (hsome : ∀ g n, ¬Q (.done none) g n) :
    S.Runs depth f (Evaluator.invoke ⟨stepWithin patience nesting, patience⟩
      S.feed { action := q.action, label := q.name })
      fun o g n => ∃ o', After Q (fun v? g n => ∃ v, Q (.done (some v)) g n ∧
        v? = some (q.apply v)) o' g n ∧ o = o'.blamed g q.name := by
  have hkept : f.kept q.action.enfixed = f := by
    rw [hq.enfixed]
    rfl
  obtain ⟨p, hp, harg⟩ := hq.takes.argument List.mem_cons_self
  apply Runs.invoke (Q := After Q fun c g n => ∃ v, Q (.done (some v)) g n ∧
    c.Given q.action q.name (Function.update (fun _ => none) q.position (some v)))
    (R := After Q fun v? g n => ∃ v, Q (.done (some v)) g n ∧ v? = some (q.apply v)) (by omega)
    (by omega)
  · intro id
    apply Runs.fulfil rfl hq.takes List.mem_cons_self (Finds.noLeft rfl) rfl _ hmore hdeferring _
      hsome (.intro _ _)
    · exact fun v g n c hv hc => ⟨v, hv, hc⟩
    · intro j hj hne
      exact absurd (List.mem_singleton.1 hj) hne
    · rw [hkept]
      exact hargument
  · exact (Breaks.intro Q _).after _
  · rintro id c g n ⟨v, hv, hc⟩
    have hslot : c.slot q.position = v := by
      apply hc.slot q.position p v hp harg
      rw [Function.update_self]
    apply (hq.serves nesting (depth + 1) g id c hneed hroom hlimit hc.action hc.label).mono
    rintro o g' n' ⟨⟨ho, rfl⟩, rfl⟩
    rw [hslot] at ho
    subst ho
    exact ⟨v, hv, rfl⟩
  · intro o g n hT
    refine ⟨o, ?_, rfl⟩
    simp only [hq.uncounted, if_false, Nat.zero_add]
    exact hT

theorem Runs.prefixCall {q : Prefix} {patience need nesting fuel : Nat}
    {Q : Outcome (Option Value) → Feed → Nat → Prop} {R : Outcome Stepped → Feed → Nat → Prop}
    (hq : q.On S patience need) (hframe : frame.feed = S.feed) (hneed : need ≤ nesting)
    (hroom : depth + 1 + need ≤ S.maxDepth) (hlimit : depth + 1 + need ≤ S.limit)
    (hmore : f.advance.atArgumentEnd = false) (hdeferring : f.advance.deferring = false)
    (hargument : S.Runs (depth + 1) f.advance
      (Evaluator.evalExpression ⟨stepWithin patience nesting, patience⟩ S.feed true) Q)
    (hsome : ∀ g n, ¬Q (.done none) g n)
    (hvalue : ∀ v g n, Q (.done (some v)) g n →
      S.Runs depth g (Evaluator.drive ⟨stepWithin patience nesting, patience⟩ fuel
        { frame with out := frame.out.set (q.apply v) } .postSwitch) fun o g' n' => R o g' (n + n'))
    (hthrown : ∀ s g n, Q (.thrown s) g n → R (.done { frame, signal := some s }) g n)
    (hfailed : ∀ e g n, Q (.failed e) g n → R (.failed (g.blame q.name e)) g n)
    (hexhausted : ∀ g n, Q .exhausted g n → R .exhausted g n) :
    S.Runs depth f (Evaluator.drive ⟨stepWithin patience nesting, patience⟩ (fuel + 2) frame
      (.dispatch (.word q.name))) R := by
  apply Gives.drive (by simp) (Gives.dispatchWord hframe hq.known hq.names hq.enfixed)
  have hinvoke := Runs.invokePrefix hq hneed hroom hlimit hmore hdeferring hargument hsome
  apply Runs.processAction hframe hinvoke
  · rintro w g n ⟨o, hT, ho⟩
    cases o with
    | done v? =>
      obtain ⟨v, hv, rfl⟩ := hT
      cases ho
      exact hvalue v g n hv
    | _ => cases ho
  · rintro g n ⟨o, hT, ho⟩
    cases o with
    | done v? =>
      obtain ⟨v, hv, rfl⟩ := hT
      cases ho
    | _ => cases ho
  · rintro s g n ⟨o, hT, ho⟩
    cases o with
    | thrown s' =>
      cases ho
      exact hthrown s g n hT
    | _ => cases ho
  · rintro e g n ⟨o, hT, ho⟩
    cases o with
    | failed e' =>
      cases ho
      exact hfailed e' g n hT
    | _ => cases ho
  · rintro g n ⟨o, hT, ho⟩
    cases o with
    | exhausted => exact hexhausted g n hT
    | _ => cases ho

theorem Runs.prefixStep {q : Prefix} {patience need nesting : Nat} {rest : List Value}
    {Q : Outcome (Option Value) → Feed → Nat → Prop} {R : Outcome Stepped → Feed → Nat → Prop}
    (hq : q.On S patience need) (hframe : frame.feed = S.feed) (hneed : need ≤ nesting)
    (hroom : depth + 1 + need ≤ S.maxDepth) (hlimit : depth + 1 + need ≤ S.limit)
    (hunits : f.units = .word q.name :: rest) (hlook : f.noLookahead = false)
    (hdeferring : f.deferring = false) (hclaim : S.Unclaiming rest.head?)
    (hmore : ∀ g : Feed, g.units = rest → g.atArgumentEnd = false)
    (hargument : S.Runs (depth + 1) { f with units := rest, lookback := some (.word q.name) }
      (Evaluator.evalExpression ⟨stepWithin patience nesting, patience⟩ S.feed true) Q)
    (hsome : ∀ g n, ¬Q (.done none) g n)
    (hvalue : ∀ v g n, Q (.done (some v)) g n →
      S.Runs depth g (Evaluator.drive ⟨stepWithin patience nesting, patience⟩ (2 * rest.length + 2)
        { frame with out := ⟨some (q.apply v), false⟩, noLookahead := false } .postSwitch)
        fun o g' n' => R o g' (n + n'))
    (hthrown : ∀ s g n frame, Q (.thrown s) g n → R (.done { frame, signal := some s }) g n)
    (hfailed : ∀ e g n, Q (.failed e) g n → R (.failed (g.blame q.name e)) g n)
    (hexhausted : ∀ g n, Q .exhausted g n → R .exhausted g n) :
    S.Runs depth f (stepWithin patience (nesting + 1) frame) R := by
  have hclaim' : S.Unclaiming f.peekNext := by
    rw [Feed.peekNext_cons hunits]
    exact hclaim
  have hfeed : ({ f with noLookahead := false } : Feed).advance =
      { f with units := rest, lookback := some (.word q.name) } := by
    cases f
    cases hlook
    exact Feed.advance_cons hunits
  apply Runs.evalStep hframe hunits (by simp) hclaim'
  rw [hlook]
  refine Runs.prefixCall hq ?_ hneed hroom hlimit ?_ ?_ ?_ hsome hvalue ?_ hfailed hexhausted
  · exact hframe
  · rw [hfeed]
    exact hmore _ rfl
  · rw [hfeed]
    exact hdeferring
  · rw [hfeed]
    exact hargument
  · exact fun s g n => hthrown s g n _

theorem Gives.prefixStep {q : Prefix} {patience need nesting : Nat} {rest : List Value} {v : Value}
    {R : Outcome Stepped → Feed → Nat → Prop} (hq : q.On S patience need)
    (hframe : frame.feed = S.feed) (hneed : need ≤ nesting) (hroom : depth + 1 + need ≤ S.maxDepth)
    (hlimit : depth + 1 + need ≤ S.limit) (hunits : f.units = .word q.name :: rest)
    (hlook : f.noLookahead = false) (hdeferring : f.deferring = false)
    (hclaim : S.Unclaiming rest.head?)
    (hmore : ∀ g : Feed, g.units = rest → g.atArgumentEnd = false)
    (hargument : S.Gives (depth + 1) { f with units := rest, lookback := some (.word q.name) }
      (Evaluator.evalExpression ⟨stepWithin patience nesting, patience⟩ S.feed true) (some v) g)
    (hrest : S.Runs depth g (Evaluator.drive ⟨stepWithin patience nesting, patience⟩
      (2 * rest.length + 2) { frame with out := ⟨some (q.apply v), false⟩, noLookahead := false }
      .postSwitch) R) :
    S.Runs depth f (stepWithin patience (nesting + 1) frame) R := by
  refine Runs.prefixStep hq hframe hneed hroom hlimit hunits hlook hdeferring hclaim hmore hargument
    ?_ ?_ ?_ ?_ ?_
  · rintro g' n ⟨_, ho, rfl, -⟩
    cases ho
  · rintro w g' n ⟨_, ho, rfl, rfl, rfl⟩
    cases ho
    simp only [Nat.zero_add]
    exact hrest
  · rintro s g' n _ ⟨_, ho, -⟩
    cases ho
  · rintro e g' n ⟨_, ho, -⟩
    cases ho
  · rintro g' n ⟨_, ho, -⟩
    cases ho

theorem Runs.invokeInfix {q : Infix} {patience need nesting : Nat} {x y : Value}
    (hq : q.On S patience need) (hneed : need ≤ nesting) (hroom : depth + 1 + need ≤ S.maxDepth)
    (hlimit : depth + 1 + need ≤ S.limit) (hmore : f.atArgumentEnd = false)
    (hdeferring : f.deferring = false)
    (hoperand : S.Gives (depth + 1) (f.kept true)
      (Evaluator.evalExpression ⟨stepWithin patience nesting, patience⟩ S.feed true) (some y) g) :
    S.Runs depth f (Evaluator.invoke ⟨stepWithin patience nesting, patience⟩ S.feed
      { action := q.action, label := q.name, left := some x })
      fun o g' n => ∃ o' n', q.answers x y o' n' ∧ o = o'.blamed g q.name ∧ g' = g ∧
        n = (if q.name = S.counted then 1 else 0) + n' := by
  obtain ⟨p, hp, hany⟩ := hq.takes.anything q.left List.mem_cons_self
  have hright : q.right ∈ [q.left, q.right] := List.mem_cons_of_mem _ List.mem_cons_self
  obtain ⟨p', hp', harg'⟩ := hq.takes.argument hright
  apply Runs.invoke (Q := fun o g' n => ∃ c, o = .done c ∧ c.Given q.action q.name
      (Function.update (Function.update (fun _ => none) q.left (some x)) q.right (some y)) ∧
      g' = g ∧ n = 0)
    (R := fun o g' n => q.answers x y o n ∧ g' = g) (by omega) (by omega)
  · intro id
    apply Runs.fulfil rfl hq.takes hright
      (Finds.left rfl hq.first hp hany.role (hany.accepts x)) _ _ hmore hdeferring _ _ _ _
    · exact fun o g' n => ∃ v, o = .done v ∧ v = some y ∧ g' = g ∧ n = 0
    · exact Function.update_of_ne hq.distinct.symm _ _
    · intro j hj hne
      simp only [List.mem_cons, List.not_mem_nil, or_false, hne] at hj
      rw [hj, Function.update_self]
      rfl
    · rw [hq.enfixed]
      exact hoperand
    · rintro g' n ⟨_, ho, rfl, -⟩
      cases ho
    · exact ⟨by simp, by simp, by simp⟩
    · rintro v g' n c ⟨_, ho, rfl, rfl, rfl⟩ hc
      cases ho
      exact ⟨c, rfl, hc, rfl, rfl⟩
  · exact ⟨by simp, by simp, by simp⟩
  · rintro id c g' _ ⟨_, hc, hgiven, rfl, rfl⟩
    cases hc
    have hleft : c.slot q.left = x := by
      apply hgiven.slot q.left p x hp hany.isArgument
      rw [Function.update_of_ne hq.distinct, Function.update_self]
    have hright : c.slot q.right = y := by
      apply hgiven.slot q.right p' y hp' harg'
      rw [Function.update_self]
    apply (hq.serves nesting (depth + 1) g' id c hneed hroom hlimit hgiven.action
      hgiven.label).mono
    rintro o g'' n' ⟨ho, rfl⟩
    rw [hleft, hright] at ho
    rw [Nat.zero_add]
    exact ⟨ho, rfl⟩
  · rintro o g' n ⟨ho, rfl⟩
    exact ⟨o, n, ho, rfl, rfl, rfl⟩

theorem Runs.infixCall {q : Infix} {patience need nesting fuel : Nat} {x y : Value}
    {R : Outcome Stepped → Feed → Nat → Prop} (hq : q.On S patience need)
    (hframe : frame.feed = S.feed) (hneed : need ≤ nesting)
    (hroom : depth + 1 + need ≤ S.maxDepth) (hlimit : depth + 1 + need ≤ S.limit)
    (hmore : f.atArgumentEnd = false) (hdeferring : f.deferring = false)
    (hoperand : S.Gives (depth + 1) (f.kept true)
      (Evaluator.evalExpression ⟨stepWithin patience nesting, patience⟩ S.feed true) (some y) g)
    (hvalue : ∀ w n, q.answers x y (.done (some w)) n →
      S.Runs depth g (Evaluator.drive ⟨stepWithin patience nesting, patience⟩ fuel
        { frame with out := frame.out.set w } .postSwitch)
        fun o g' n' => R o g' ((if q.name = S.counted then 1 else 0) + n + n'))
    (hbroken : ∀ o n, q.answers x y o n → match o with
      | .done _ => True
      | .thrown s =>
        R (.done { frame, signal := some s }) g ((if q.name = S.counted then 1 else 0) + n)
      | .failed e => R (.failed (g.blame q.name e)) g ((if q.name = S.counted then 1 else 0) + n)
      | .exhausted => R .exhausted g ((if q.name = S.counted then 1 else 0) + n)) :
    S.Runs depth f (Evaluator.drive ⟨stepWithin patience nesting, patience⟩ (fuel + 1) frame
      (.processAction { action := q.action, label := q.name, left := some x })) R := by
  have hinvoke := Runs.invokeInfix (x := x) hq hneed hroom hlimit hmore hdeferring hoperand
  apply Runs.processAction hframe hinvoke
  · rintro w g' _ ⟨o, n, ha, ho, rfl, rfl⟩
    cases o <;> cases ho
    exact hvalue w n ha
  · rintro g' _ ⟨o, n, ha, ho, rfl, rfl⟩
    cases o <;> cases ho
    exact absurd ha (hq.visible x y n)
  · rintro s g' _ ⟨o, n, ha, ho, rfl, rfl⟩
    cases o <;> cases ho
    exact hbroken _ n ha
  · rintro e g' _ ⟨o, n, ha, ho, rfl, rfl⟩
    cases o <;> cases ho
    exact hbroken _ n ha
  · rintro g' _ ⟨o, n, ha, ho, rfl, rfl⟩
    cases o <;> cases ho
    exact hbroken _ n ha

end Stage

/-! ### Two actions of this kind -/

def Param.anything (name : String) : Param := { name, role := .normal, types := TypeSet.anything }

theorem Param.anything_isAnything (name : String) : (Param.anything name).IsAnything where
  role := rfl
  owner := rfl
  accepts := TypeSet.accepts_anything

/-- Compares its operands, whatever they are. -/
def sameness (deferral : Deferral) : Infix where
  name := "is"
  identity := 0
  action :=
    { label := some "is", params := [.anything "left", .anything "right"], signature := 0
      dispatcher := .native { name := "is", spec := "", operation := .comparison (.equal false) }
      exemplar := none, enfixed := true, deferral, description := none }
  left := 0
  right := 1
  answers x y o n := o = .done (some (.logic (x.same y != false))) ∧ n = 0

theorem sameness_on {S : Stage} {deferral : Deferral} (hknown : S.known "is")
    (h : S.names "is" = some (.action 0 (sameness deferral).action)) (patience need : Nat) :
    (sameness deferral).On S patience need where
  known := hknown
  names := h
  enfixed := rfl
  takes := by
    refine ⟨fun _ => rfl, ?_, ?_⟩
    · intro i hi
      rcases List.mem_cons.1 hi with rfl | hi
      · exact ⟨_, rfl, Param.anything_isAnything _⟩
      · rw [List.mem_singleton.1 hi]
        exact ⟨_, rfl, Param.anything_isAnything _⟩
    · intro i p hp _
      have hlt : i < 2 := (List.getElem?_eq_some_iff.1 hp).1
      show i ∈ [0, 1]
      simp only [List.mem_cons, List.not_mem_nil, or_false]
      omega
  first := rfl
  distinct := Nat.zero_ne_one
  serves := by
    have hserves : S.Serves patience 0 (sameness deferral).action "is" fun c o n =>
        o = .ofResult (.ok (.logic ((c.slot 0).same (c.slot 1) != false))) ∧ n = 0 :=
      Stage.serves_native rfl fun _ _ _ => rfl
    exact hserves.more (Nat.zero_le need)
  visible := by
    rintro x y n ⟨h, -⟩
    cases h

/-- Tells whether its argument, whatever it is, counts as false. -/
def negation : Prefix where
  name := "not"
  identity := 0
  action :=
    { label := some "not", params := [.anything "value"], signature := 0
      dispatcher := .native { name := "not", spec := "", operation := .comparison .not }
      exemplar := none, enfixed := false, deferral := .none, description := none }
  position := 0
  apply v := .logic !v.isTruthy

theorem negation_on {S : Stage} (hknown : S.known "not")
    (h : S.names "not" = some (.action 0 negation.action))
    (hcounted : "not" ≠ S.counted) (patience need : Nat) : negation.On S patience need where
  known := hknown
  names := h
  enfixed := rfl
  takes := by
    refine ⟨fun _ => rfl, ?_, ?_⟩
    · intro i hi
      rw [List.mem_singleton.1 hi]
      exact ⟨_, rfl, Param.anything_isAnything _⟩
    · intro i p hp _
      have hlt : i < 1 := (List.getElem?_eq_some_iff.1 hp).1
      show i ∈ [0]
      simp only [List.mem_cons, List.not_mem_nil, or_false]
      omega
  serves := by
    have hserves : S.Serves patience 0 negation.action "not" fun c o n =>
        o = .ofResult (.ok (.logic !(c.slot 0).isTruthy)) ∧ n = 0 :=
      Stage.serves_native rfl fun _ _ _ => rfl
    exact hserves.more (Nat.zero_le need)
  uncounted := hcounted

end Homoicon
