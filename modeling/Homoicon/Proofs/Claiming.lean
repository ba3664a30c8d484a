import Homoicon.Proofs.Results
import Homoicon.Proofs.Stage.Calls

/-!
# Who takes on an enfixed action

Behind the operand of nested calls an enfixed action can be taken on by the innermost step, or by
any of the calls around it.  Its deferral decides.  Each frame sees the action come next and has
only the mark on the feed to tell whether it was left to it, and still exactly one of them takes it
on.
-/

namespace Homoicon

/-- The value of calls one inside the other, the first outermost. -/
def applyAll (calls : List Prefix) (v : Value) : Value := calls.foldr (fun q v => q.apply v) v

/-- The innermost calls that are made before an action with this deferral is taken on: none, one if
there is one, or all. -/
def Deferral.before (d : Deferral) (calls : List Prefix) : List Prefix :=
  match d with
  | .none => []
  | .defer => calls.getLast?.toList
  | .postpone => calls

/-- The calls that go on with the result of the action. -/
def Deferral.behind (d : Deferral) (calls : List Prefix) : List Prefix :=
  match d with
  | .none => calls
  | .defer => calls.dropLast
  | .postpone => []

/-- Whether the argument made of these calls leaves the action to the call around it. -/
def Deferral.Waits (d : Deferral) (calls : List Prefix) : Prop :=
  d = .postpone ∨ d = .defer ∧ calls = []

theorem Deferral.mustDefer_of_waits {d : Deferral} {calls : List Prefix} (h : d.Waits calls) :
    mustDefer d false = true := by
  rcases h with rfl | ⟨rfl, -⟩ <;> rfl

theorem Deferral.mustDefer_of_not_waits {d : Deferral} (h : ¬d.Waits []) :
    mustDefer d false = false := by
  cases d with
  | none => rfl
  | defer => exact absurd (.inr ⟨rfl, rfl⟩) h
  | postpone => exact absurd (.inl rfl) h

/-- Once the call around the argument has its value, the action waits only to the end. -/
theorem Deferral.mustDefer_waited {d : Deferral} {calls : List Prefix} {q : Prefix}
    (h : ¬d.Waits (q :: calls)) : mustDefer d true = false := by
  cases d with
  | none => rfl
  | defer => rfl
  | postpone => exact absurd (.inl rfl) h

theorem Deferral.before_of_waits {d : Deferral} {calls : List Prefix} (h : d.Waits calls)
    (q : Prefix) : d.before (q :: calls) = q :: calls ∧ d.behind (q :: calls) = [] := by
  rcases h with rfl | ⟨rfl, rfl⟩ <;> exact ⟨rfl, rfl⟩

theorem Deferral.before_of_not_waits {d : Deferral} {calls : List Prefix} (h : ¬d.Waits calls)
    (q : Prefix) : d.before (q :: calls) = d.before calls ∧
      d.behind (q :: calls) = q :: d.behind calls := by
  cases d with
  | none => exact ⟨rfl, rfl⟩
  | postpone => exact absurd (.inl rfl) h
  | defer =>
    cases calls with
    | nil => exact absurd (.inr ⟨rfl, rfl⟩) h
    | cons q' calls => exact ⟨rfl, rfl⟩

/-- An enfixed action between two literals, with nothing behind them that goes on. -/
structure Contest (S : Stage) (patience need : Nat) where
  unit : Value
  value : Value
  literal : Stage.Literal unit value
  operator : Infix
  on : operator.On S patience need
  counted : operator.name = S.counted
  operand : Value
  right : Value
  operandLiteral : Stage.Literal operand right
  rest : List Value
  ending : S.Ending rest.head?

namespace Contest

variable {S : Stage} {patience need : Nat}

def deferral (C : Contest S patience need) : Deferral := C.operator.action.deferral

def tail (C : Contest S patience need) : List Value := .word C.operator.name :: C.operand :: C.rest

def units (C : Contest S patience need) (calls : List Prefix) : List Value :=
  calls.map (fun q => .word q.name) ++ C.unit :: C.tail

def after (C : Contest S patience need) (f : Feed) : Feed :=
  { f with units := C.rest, lookback := some C.operand, noLookahead := false, deferring := false }

/-- What evaluation comes to when the action took on `left` and the calls `behind` go on with its
result. -/
def Answered (C : Contest S patience need) (f : Feed) (left : Value) (behind : List Prefix)
    (r : Outcome (Option Value)) (g : Feed) (n : Nat) : Prop :=
  ∃ answer k, C.operator.answers left C.right answer k ∧ g = C.after f ∧ n = 1 + k ∧ r =
    match answer with
    | .done v? => .done (v?.map (applyAll behind))
    | .thrown s => .thrown s
    | .failed e => .failed ((C.after f).blame C.operator.name e)
    | .exhausted => .exhausted

end Contest

namespace Stage

variable {S : Stage} {depth patience nesting need : Nat} {f : Feed} {frame : Frame}
  {calls : List Prefix}

theorem units_unclaiming (C : Contest S patience need)
    (hcalls : ∀ q ∈ calls, q.On S patience need) : S.Unclaiming (C.units calls).head? := by
  cases calls with
  | nil => exact C.literal.ending.unclaiming
  | cons q calls => exact (hcalls q List.mem_cons_self).ending.unclaiming

theorem units_more (C : Contest S patience need) (calls : List Prefix)
    (hunits : f.units = C.units calls) : f.atArgumentEnd = false := by
  cases calls with
  | nil => exact Feed.atArgumentEnd_cons hunits C.literal.ne_comma
  | cons q calls => exact Feed.atArgumentEnd_cons hunits (by simp)

theorem Runs.takesOn (C : Contest S patience need) {left : Value} {fuel : Nat}
    (hneed : need ≤ nesting + 1) (hroom : depth + need + 2 ≤ S.maxDepth)
    (hlimit : depth + need + 2 ≤ S.limit) (hfuel : 4 ≤ fuel) (hframe : frame.feed = S.feed)
    (hout : frame.out = ⟨some left, false⟩) (hlook : frame.noLookahead = false)
    (hunits : f.units = C.tail)
    (hnow : (frame.fulfilling && mustDefer C.deferral f.deferring) = false) :
    S.Runs depth f (Evaluator.drive ⟨stepWithin patience (nesting + 1), patience⟩ fuel frame
      .postSwitch) fun o g n => ∃ r, C.Answered f left [] r g n ∧ S.Comes o r := by
  have hgoes : S.Goes f.peek C.operator.name C.operator.action := by
    rw [Feed.peek, hunits]
    exact C.on.goes
  obtain ⟨fuel, rfl⟩ : ∃ k, fuel = k + 4 := Nat.exists_eq_add_of_le' hfuel
  apply Gives.drive (by simp) (Gives.takes hframe hgoes hlook hout hnow)
  have hunits' : { f with deferring := false }.units = C.tail := hunits
  rw [Feed.advance_cons hunits']
  refine Runs.infixCall C.on ?_ hneed (by omega) (by omega)
    (Feed.atArgumentEnd_cons rfl C.operandLiteral.ne_comma) rfl
    (Gives.literalOperand (by omega) (by omega) C.operandLiteral rfl rfl C.ending.unclaiming) ?_ ?_
  · exact hframe
  · intro w k hw
    have hending : S.Ending (C.after f).peek := C.ending
    refine Gives.drive (by simp) (Gives.closes ?_ hending) ?_
    · exact hframe
    · apply Gives.finish.mono
      rintro o g n ⟨_, rfl, rfl, rfl, rfl⟩
      rw [if_pos C.counted]
      exact ⟨_, ⟨_, k, hw, rfl, rfl, rfl⟩, _, rfl, rfl, hframe, rfl⟩
  · intro o k ho
    rw [if_pos C.counted]
    cases o with
    | done v? => trivial
    | thrown s => exact ⟨_, ⟨_, k, ho, rfl, rfl, rfl⟩, _, rfl, rfl⟩
    | failed e => exact ⟨_, ⟨_, k, ho, rfl, rfl, rfl⟩, rfl⟩
    | exhausted => exact ⟨_, ⟨_, k, ho, rfl, rfl, rfl⟩, rfl⟩

theorem Finds.waits (C : Contest S patience need) {v : Value} {fuel : Nat} {ev : Evaluator}
    (hframe : frame.feed = S.feed) (hfulfilling : frame.fulfilling = true)
    (hlook : frame.noLookahead = false) (hout : frame.out = ⟨some v, false⟩)
    (hunits : f.units = C.tail) (hmust : mustDefer C.deferral f.deferring = true) :
    S.Finds depth f (ev.drive (fuel + 2) frame .postSwitch) (S.Yields v)
      { f with deferring := true } := by
  have hgoes : S.Goes f.peek C.operator.name C.operator.action := by
    rw [Feed.peek, hunits]
    exact C.on.goes
  have hwait : (frame.fulfilling && mustDefer C.deferral f.deferring) = true := by
    rw [hfulfilling, hmust]
    rfl
  apply Gives.drive (by simp) (Gives.waits hframe hgoes hlook hout hwait)
  apply Gives.finish.mono
  rintro o g n ⟨_, rfl, rfl, rfl, rfl⟩
  exact ⟨_, rfl, ⟨rfl, hframe, hout⟩, rfl, rfl⟩

theorem Finds.leaves (C : Contest S patience need) (hwaits : C.deferral.Waits calls)
    (hcalls : ∀ q ∈ calls, q.On S patience need) (hneed : calls.length + need ≤ nesting)
    (hroom : depth + 2 * calls.length + need ≤ S.maxDepth)
    (hlimit : depth + 2 * calls.length + need ≤ S.limit) (hframe : frame.feed = S.feed)
    (hfulfilling : frame.fulfilling = true) (hunits : f.units = C.units calls)
    (hlook : f.noLookahead = false) (hdeferring : f.deferring = false) :
    S.Finds depth f (stepWithin patience (nesting + 1) frame) (S.Yields (applyAll calls C.value))
      { f with units := C.tail, lookback := some C.unit, deferring := true } := by
  induction calls generalizing depth f frame nesting with
  | nil =>
    have hclaim : S.Unclaiming f.peekNext := by
      rw [Feed.peekNext_cons hunits]
      exact C.on.goes.unclaiming
    apply Runs.literal hframe C.literal hunits hclaim
    have hmust : mustDefer C.deferral f.deferring = true := by
      rw [hdeferring]
      exact Deferral.mustDefer_of_waits hwaits
    rw [hlook]
    refine Finds.waits C ?_ ?_ rfl rfl rfl hmust
    · exact hframe
    · exact hfulfilling
  | cons q calls ih =>
    obtain ⟨nesting, rfl⟩ : ∃ k, nesting = k + 1 :=
      Nat.exists_eq_succ_of_ne_zero (by simp only [List.length_cons] at hneed; omega)
    simp only [List.length_cons] at hneed hroom hlimit
    have hothers : ∀ q ∈ calls, q.On S patience need :=
      fun q hq => hcalls q (List.mem_cons_of_mem _ hq)
    have hpostpone : C.deferral = .postpone := by
      rcases hwaits with hpostpone | ⟨-, hnil⟩
      · exact hpostpone
      · cases hnil
    have hargument : S.Gives (depth + 1) { f with units := C.units calls,
                                                  lookback := some (.word q.name) }
        (Evaluator.evalExpression ⟨stepWithin patience (nesting + 1), patience⟩ S.feed true)
        (some (applyAll calls C.value))
        { f with units := C.tail, lookback := some C.unit, deferring := true } := by
      refine Gives.expression (by omega) (by omega) hlook ?_
      intro id
      exact ih (.inl hpostpone) hothers (by omega) (by omega) (by omega) rfl rfl rfl hlook
        hdeferring
    have hmust : mustDefer C.deferral true = true := by
      rw [hpostpone]
      rfl
    refine Gives.prefixStep (hcalls q List.mem_cons_self) hframe (by omega) (by omega) (by omega)
      hunits hlook hdeferring (units_unclaiming C hothers) (fun g hg => units_more C calls hg)
      hargument ?_
    refine Finds.waits C ?_ ?_ rfl rfl rfl hmust
    · exact hframe
    · exact hfulfilling

theorem Runs.goesOn (C : Contest S patience need) {q : Prefix} {left : Value}
    {behind : List Prefix} (hq : q.On S patience need) (hcalls : ∀ q ∈ calls, q.On S patience need)
    (hframe : frame.feed = S.feed) (hneed : need ≤ nesting)
    (hroom : depth + 1 + need ≤ S.maxDepth) (hlimit : depth + 1 + need ≤ S.limit)
    (hunits : f.units = .word q.name :: C.units calls) (hlook : f.noLookahead = false)
    (hdeferring : f.deferring = false)
    (hargument : S.Runs (depth + 1)
      { f with units := C.units calls, lookback := some (.word q.name) }
      (Evaluator.evalExpression ⟨stepWithin patience nesting, patience⟩ S.feed true)
      (C.Answered f left behind)) :
    S.Runs depth f (stepWithin patience (nesting + 1) frame) fun o g n => ∃ r,
      C.Answered f left (q :: behind) r g n ∧ S.Comes o r := by
  refine Runs.prefixStep hq hframe hneed hroom hlimit hunits hlook hdeferring
    (units_unclaiming C hcalls) (fun g hg => units_more C calls hg) hargument ?_ ?_ ?_ ?_ ?_
  · rintro g n ⟨answer, k, hanswer, -, -, hr⟩
    cases answer with
    | done v? =>
      cases v? with
      | none => exact C.on.visible _ _ _ hanswer
      | some w => cases hr
    | _ => cases hr
  · rintro v g _ ⟨answer, k, hanswer, rfl, rfl, hr⟩
    cases answer with
    | done v? =>
      cases v? with
      | none => exact absurd hanswer (C.on.visible _ _ _)
      | some w =>
        cases hr
        have hending : S.Ending (C.after f).peek := C.ending
        refine Gives.drive (by simp) (Gives.closes ?_ hending) ?_
        · exact hframe
        · apply Gives.finish.mono
          rintro o g n ⟨_, rfl, rfl, rfl, rfl⟩
          exact ⟨_, ⟨_, k, hanswer, rfl, rfl, rfl⟩, _, rfl, rfl, hframe, rfl⟩
    | _ => cases hr
  · rintro s g _ frame' ⟨answer, k, hanswer, rfl, rfl, hr⟩
    cases answer <;> cases hr
    exact ⟨_, ⟨_, k, hanswer, rfl, rfl, rfl⟩, _, rfl, rfl⟩
  · rintro e g _ ⟨answer, k, hanswer, rfl, rfl, hr⟩
    cases answer <;> cases hr
    -- the fault keeps the place that the call of the action gave it
    have hblame := Feed.blame_blame (f := C.after f) rfl q.name C.operator.name
    rw [hblame]
    exact ⟨_, ⟨_, k, hanswer, rfl, rfl, rfl⟩, rfl⟩
  · rintro g _ ⟨answer, k, hanswer, rfl, rfl, hr⟩
    cases answer <;> cases hr
    exact ⟨_, ⟨_, k, hanswer, rfl, rfl, rfl⟩, rfl⟩

/-- A step that does not leave the action to a call around it sees to it that it is taken on: by one
of the calls inside, or by itself. -/
theorem Runs.claimed (C : Contest S patience need) (hcalls : ∀ q ∈ calls, q.On S patience need)
    (hclaims : frame.fulfilling = true → ¬C.deferral.Waits calls)
    (hneed : calls.length + need + 1 ≤ nesting)
    (hroom : depth + 2 * calls.length + need + 2 ≤ S.maxDepth)
    (hlimit : depth + 2 * calls.length + need + 2 ≤ S.limit) (hframe : frame.feed = S.feed)
    (hunits : f.units = C.units calls) (hlook : f.noLookahead = false)
    (hdeferring : f.deferring = false) :
    S.Runs depth f (stepWithin patience (nesting + 1) frame) fun o g n => ∃ r,
      C.Answered f (applyAll (C.deferral.before calls) C.value) (C.deferral.behind calls) r g n ∧
        S.Comes o r := by
  obtain ⟨nesting, rfl⟩ : ∃ k, nesting = k + 1 := Nat.exists_eq_succ_of_ne_zero (by omega)
  -- from the outermost call inwards: who takes the action on shows where the argument ends
  induction calls generalizing depth f frame nesting with
  | nil =>
    have hclaim : S.Unclaiming f.peekNext := by
      rw [Feed.peekNext_cons hunits]
      exact C.on.goes.unclaiming
    have hbefore : C.deferral.before [] = [] := by cases C.deferral <;> rfl
    have hbehind : C.deferral.behind [] = [] := by cases C.deferral <;> rfl
    have hnow : (frame.fulfilling && mustDefer C.deferral f.deferring) = false := by
      cases hfulfilling : frame.fulfilling with
      | false => rfl
      | true =>
        rw [hdeferring]
        exact Deferral.mustDefer_of_not_waits (hclaims hfulfilling)
    rw [hbefore, hbehind]
    apply Runs.literal hframe C.literal hunits hclaim
    rw [hlook]
    refine Runs.takesOn C (by omega) (by omega) (by omega) ?_ ?_ rfl rfl rfl ?_
    · simp only [Contest.tail, List.length_cons]
      omega
    · exact hframe
    · exact hnow
  | cons q calls ih =>
    simp only [List.length_cons] at hneed hroom hlimit
    have hothers : ∀ q ∈ calls, q.On S patience need :=
      fun q hq => hcalls q (List.mem_cons_of_mem _ hq)
    have hq := hcalls q List.mem_cons_self
    obtain ⟨nesting, rfl⟩ : ∃ k, nesting = k + 1 := Nat.exists_eq_succ_of_ne_zero (by omega)
    by_cases hwaits : C.deferral.Waits calls
    · -- the argument leaves the action to this very step
      obtain ⟨hbefore, hbehind⟩ := Deferral.before_of_waits hwaits q
      rw [hbefore, hbehind]
      have hargument : S.Gives (depth + 1) { f with units := C.units calls,
                                                    lookback := some (.word q.name) }
          (Evaluator.evalExpression ⟨stepWithin patience (nesting + 1 + 1), patience⟩ S.feed true)
          (some (applyAll calls C.value))
          { f with units := C.tail, lookback := some C.unit, deferring := true } := by
        refine Gives.expression (by omega) (by omega) hlook ?_
        intro id
        exact Finds.leaves C hwaits hothers (by omega) (by omega) (by omega) rfl rfl rfl hlook
          hdeferring
      have hnow : (frame.fulfilling && mustDefer C.deferral true) = false := by
        cases hfulfilling : frame.fulfilling with
        | false => rfl
        | true => exact Deferral.mustDefer_waited (hclaims hfulfilling)
      refine Gives.prefixStep hq hframe (by omega) (by omega) (by omega) hunits hlook hdeferring
        (units_unclaiming C hothers) (fun g hg => units_more C calls hg) hargument ?_
      refine Runs.takesOn C (by omega) (by omega) (by omega) ?_ ?_ rfl rfl rfl ?_
      · simp only [List.append_eq, List.length_append, List.length_cons]
        omega
      · exact hframe
      · exact hnow
    · -- a call inside took the action on, and this one goes on with what it came to
      obtain ⟨hbefore, hbehind⟩ := Deferral.before_of_not_waits hwaits q
      rw [hbefore, hbehind]
      have hargument : S.Runs (depth + 1) { f with units := C.units calls,
                                                   lookback := some (.word q.name) }
          (Evaluator.evalExpression ⟨stepWithin patience (nesting + 1 + 1), patience⟩ S.feed true)
          (C.Answered f (applyAll (C.deferral.before calls) C.value)
            (C.deferral.behind calls)) := by
        refine Runs.expression (by omega) (by omega) hlook ?_
        intro id
        refine ih (f := { f with units := C.units calls, lookback := some (.word q.name) }) hothers
          (fun _ => hwaits) ?_ ?_ rfl rfl hlook hdeferring nesting ?_ <;> omega
      exact Runs.goesOn C hq hothers hframe (by omega) (by omega) (by omega) hunits hlook hdeferring
        hargument

/-- An enfixed action behind nested calls and their operand is called once, whatever its deferral:
for the operand itself, for the innermost call's value, or for the value of all the calls.  The
other calls go on with its result, and nothing is left pending.  Beyond that one call there are only
those that the action makes itself. -/
theorem deferral_decides_claimant (C : Contest S patience need)
    (hcalls : ∀ q ∈ calls, q.On S patience need) (hneed : calls.length + need + 1 ≤ nesting)
    (hroom : depth + 2 * calls.length + need + 2 ≤ S.maxDepth)
    (hlimit : depth + 2 * calls.length + need + 2 ≤ S.limit) (hframe : frame.feed = S.feed)
    (hfulfilling : frame.fulfilling = false) (hunits : f.units = C.units calls)
    (hlook : f.noLookahead = false) (hdeferring : f.deferring = false) :
    S.Runs depth f (stepWithin patience (nesting + 1) frame) fun o g n => ∃ answer k,
      C.operator.answers
          (match C.deferral with
          | .none => C.value
          | .defer => calls.getLast?.elim C.value fun q => q.apply C.value
          | .postpone => applyAll calls C.value) C.right answer k ∧
        n = 1 + k ∧ g.deferring = false ∧ g.units = C.rest ∧
        match answer with
        | .done (some w) => ∃ s, o = .done s ∧ S.Yields
            (match C.deferral with
            | .none => applyAll calls w
            | .defer => applyAll calls.dropLast w
            | .postpone => w) s
        | .done none => False
        | .thrown signal => ∃ s, o = .done s ∧ s.signal = some signal
        | .failed e => o = .failed ((e.inCall C.operator.name).nearUnit C.operand.mold)
        | .exhausted => o = .exhausted := by
  have hclaims : frame.fulfilling = true → ¬C.deferral.Waits calls := by
    intro h
    rw [hfulfilling] at h
    cases h
  apply (Runs.claimed C hcalls hclaims hneed hroom hlimit hframe hunits hlook hdeferring).mono
  rintro o g n ⟨r, ⟨answer, k, hanswer, rfl, rfl, rfl⟩, hcomes⟩
  have hleft : applyAll (C.deferral.before calls) C.value =
      match C.deferral with
      | .none => C.value
      | .defer => calls.getLast?.elim C.value fun q => q.apply C.value
      | .postpone => applyAll calls C.value := by
    cases C.deferral with
    | defer => cases hlast : calls.getLast? <;> simp [Deferral.before, applyAll, hlast]
    | _ => rfl
  rw [hleft] at hanswer
  refine ⟨answer, k, hanswer, rfl, rfl, rfl, ?_⟩
  match answer, hanswer with
  | .done none, hanswer => exact C.on.visible _ _ _ hanswer
  | .done (some w), _ =>
    obtain ⟨s, hs, hyields⟩ := hcomes
    refine ⟨s, hs, ?_⟩
    cases hd : C.deferral <;> rw [hd] at hyields <;> exact hyields
  | .thrown signal, _ => exact hcomes
  | .failed e, _ => exact hcomes
  | .exhausted, _ => exact hcomes

end Stage

/-- A machine about to step over `not not 1 is 2`, where `is` defers to the inner call. -/
def refuting : Machine :=
  { Machine.new {} with
    scopes := ⟨#[{ bindings :=
      [("not", .action 0 negation.action), ("is", .action 0 (sameness .defer).action)] }]⟩
    feeds := #[{ units := [.word "not", .word "not", .integer 1, .word "is", .integer 2]
                 scope := 0 }] }

/-- That one is not is not two, which is so. -/
theorem deferral_decides_claimant_refuting : ∃ s,
    (stepWithin 1 4 { id := 0, feed := 0 } refuting).1 = .done s ∧
      s.frame.out = ⟨some (.logic true), false⟩ ∧
      ((stepWithin 1 4 { id := 0, feed := 0 }).trace refuting).countP (Moment.calls "is") = 1 := by
  let S := Stage.ofMachine refuting 0 6 "is"
  have hparent : ∀ s p, (refuting.scopes.scope s).parent = some p → p < s := by
    intro s p h
    exfalso
    match s with
    | 0 => cases h
    | s + 1 => cases h
  have hshows : S.Shows 0 (refuting.feed 0) refuting :=
    Stage.ofMachine_shows "is" rfl nofun Nat.zero_lt_one Nat.zero_lt_one hparent (Nat.zero_le 6)
  have hending : S.Ending ([] : List Value).head? := by
    refine ⟨trivial, ?_⟩
    intro name a h
    cases h
  let C : Contest S 1 0 :=
    { unit := .integer 1, value := .integer 1, literal := .inert rfl
      operator := sameness .defer, on := sameness_on trivial rfl 1 0, counted := rfl
      operand := .integer 2, right := .integer 2, operandLiteral := .inert rfl
      rest := [], ending := hending }
  have hnot : negation.On S 1 0 := by
    refine negation_on trivial rfl ?_ 1 0
    show "not" ≠ "is"
    decide
  have hcalls : ∀ q ∈ [negation, negation], q.On S 1 0 := by
    intro q hq
    simp only [List.mem_cons, List.not_mem_nil, or_false, or_self] at hq
    rw [hq]
    exact hnot
  have hroom : 0 + 2 * [negation, negation].length + 0 + 2 ≤ S.maxDepth := by
    show 6 ≤ Config.maxDepth {}
    decide
  have hstep : S.Runs 0 (refuting.feed 0) (stepWithin 1 4 { id := 0, feed := 0 }) _ :=
    Stage.deferral_decides_claimant C hcalls (Nat.le_refl 3) hroom (Nat.le_refl 6) rfl rfl rfl rfl
      rfl
  obtain ⟨⟨g, -, answer, k, ⟨rfl, rfl⟩, hn, -, -, s, hs, hyields⟩, -⟩ := hstep refuting hshows
  exact ⟨s, hs, hyields.out, hn⟩

/-- A machine about to step over the given code, where `is` defers and has the given dispatcher, and
`take more` takes the next argument of this very code. -/
def contested (is : Dispatcher) (code : List Value) (m : Machine) : Machine :=
  let native (name : String) (operation : Operation) : Dispatcher :=
    .native { name, spec := "", operation }
  let more : Varargs :=
    { feed := 0, pull := .evaluate, param := .anything "more", label := "more", frame := none }
  { m with
    scopes := ⟨#[{ bindings :=
      [("not", .action 0 negation.action),
        ("is", .action 1 { (sameness .defer).action with dispatcher := is }),
        ("if", .action 2 { (sameness .none).action with
          enfixed := false, dispatcher := native "if" (.control .ifTrue) }),
        ("take", .action 3 { negation.action with dispatcher := native "take" (.generator .take) }),
        ("more", .varargs 4 more)] }]⟩
    feeds := #[{ units := code, scope := 0 }] }

/-- The action is not called if the frames run out before its turn or a stop is taken up, and it is
called again if it calls itself.  If its call comes to nothing, the outer `not` gets no argument.  If
it takes from the code that it stands in, an action left to it there stays pending. -/
theorem claimant_unsettled :
    let step := stepWithin 1 5 { id := 0, feed := 0 }
    let calls (m : Machine) : Nat := (step.trace m).countP (Moment.calls "is")
    let single : List Value := [.integer 1, .word "is", .integer 2]
    let nested : List Value := .word "not" :: .word "not" :: single
    let comparing := (sameness .defer).action.dispatcher
    let repeating := Dispatcher.interpreted
      [.word "if", .word "right", .block [.integer 1, .word "is", .logic false]] 0
    let discarding := Dispatcher.native { name := "elide", spec := "", operation := .access .elide }
    let taking := Dispatcher.interpreted [.word "take", .word "more", .word "unset"] 0
    (calls (contested comparing nested (Machine.new { maxDepth := 3 })) = 0 ∧
      calls (contested comparing nested
        { Machine.new { pollInterval := 1 } with interrupt := true }) = 0) ∧
    calls (contested repeating single (Machine.new {})) = 2 ∧
    (step (contested discarding nested (Machine.new {}))).1.result?.isNone = true ∧
    ((step (contested taking (nested ++ [.integer 3, .word "is", .integer 4])
      (Machine.new {}))).2.feed 0).deferring = true := by
  decide +kernel

end Homoicon
