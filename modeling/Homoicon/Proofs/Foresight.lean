import Homoicon.Proofs.Mirror
import Homoicon.Proofs.Nested

/-!
# Bounded foresight

A step that consumes `k` units of its feed sees no more of it than these and the one behind them.
Whatever stands further back may be exchanged: the step ends in the same way and leaves the same
machine, but for what it did not read.
-/

namespace Homoicon

/-- Whatever stands further back in the feed `id` than `x` reads, `x` goes alike; its results
satisfy `Q`. -/
structure Foresees {α : Type} (id : FeedId) (Q : α → Prop) (x : Eval α) : Prop where
  returns : x.Returns Q
  mirrors : ∀ {m : Machine}, id < m.feeds.size → ∀ units, Mirrors id units x x m

theorem Machine.lt_size_of_run {α : Type} {id : FeedId} {x : Eval α} {m m' : Machine}
    {o : Outcome α} (h : x m = (o, m')) (hid : id < m.feeds.size) : id < m'.feeds.size :=
  Nat.lt_of_lt_of_le hid (FeedsShrink.of_run h).size_le

namespace Foresees

variable {α β : Type} {id : FeedId} {P Q : α → Prop} {x : Eval α}

theorem ret {a : α} (h : Q a) : Foresees id Q (pure a) where
  returns := .pure h
  mirrors _ _ := .of_still rfl rfl

theorem bind {Q : β → Prop} {f : α → Eval β} (hx : Foresees id P x)
    (hf : ∀ a, P a → Foresees id Q (f a)) : Foresees id Q (x >>= f) where
  returns := hx.returns.bind fun a ha => (hf a ha).returns
  mirrors hid units := (hx.mirrors hid units).bind hid fun a m' hrun _ =>
    (hf a (hx.returns _ a m' hrun)).mirrors (Machine.lt_size_of_run hrun hid) _

theorem fail {f : Fault} : Foresees id Q (.fail f) where
  returns := .fail
  mirrors _ _ := .of_still rfl rfl

theorem signal {s : Signal} : Foresees id Q (.signal s) where
  returns := by rintro _ _ _ ⟨⟩
  mirrors _ _ := .of_still rfl rfl

theorem exhaust : Foresees id Q .exhaust where
  returns := by rintro _ _ _ ⟨⟩
  mirrors _ _ := .of_still rfl rfl

theorem command (c : Command β) {Q : β → Prop} (h : ¬c.LooksInto id) (hQ : ∀ m, Q (c.run m).1) :
    Foresees id Q (Eval.command c) where
  returns := by
    rintro m _ _ ⟨⟩
    exact hQ m
  mirrors hid _ := .command c hid h

theorem catchSignal (hx : Foresees id Q x) :
    Foresees id (fun r => ∀ a, r = .ok a → Q a) x.catchSignal where
  returns m r m' hr a ha := by
    subst ha
    rcases Eval.catchSignal_eq_done hr with ⟨_, ⟨⟩, hdone⟩ | ⟨_, ⟨⟩, -⟩
    exact hx.returns m a m' hdone
  mirrors hid units := (hx.mirrors hid units).catchSignal

theorem catchFault (hx : Foresees id Q x) : Foresees id (Facts.all.Caught Q) x.catchFault where
  returns m r m' hr := by
    rw [x.run_catchFault] at hr
    rcases hrun : x m with ⟨a | s | e | _, m''⟩ <;> rw [hrun] at hr <;> cases hr
    · exact hx.returns m _ _ hrun
    · exact fun _ _ => trivial
  mirrors hid units := (hx.mirrors hid units).catchFault

theorem inFrame {label : Option String} {body : FrameId → Eval α}
    (h : ∀ frame, Foresees id Q (body frame)) : Foresees id Q (.inFrame label body .done) where
  returns m a m' ha := by
    by_cases hroom : m.config.maxDepth ≤ m.depth
    · simp only [Eval.run, hroom, if_true] at ha
      cases ha
    · rw [Eval.run_inFrame hroom] at ha
      rcases hrun : (body m.nextFrame) (m.enter label) with ⟨b | s | e | _, m''⟩ <;>
        rw [hrun] at ha <;> cases ha
      exact (h m.nextFrame).returns _ _ _ hrun
  mirrors {m} hid units := by
    have hbody : Mirrors id units (body m.nextFrame) (body m.nextFrame) (m.enter label) :=
      (h m.nextFrame).mirrors (m := m.enter label) hid units
    exact hbody.inFrame

theorem handle {taker : Taker} {take : Signal → Eval α} (hx : Foresees id Q x)
    (htake : ∀ s, taker.takes s = true → Foresees id Q (take s)) :
    Foresees id Q (x.handle taker take) := by
  refine hx.catchSignal.bind fun r hr => ?_
  cases r with
  | ok a => exact ret (hr a rfl)
  | error s =>
    dsimp only
    split
    · rename_i htakes
      exact bind (P := fun _ => True) (command _ (fun h => h) fun _ => trivial) fun _ _ => htake s htakes
    · exact signal

end Foresees

/-- The logic of evaluations that do not look too far into the feed `id`. -/
def foresight (id : FeedId) : Logic Facts.all where
  Holds _ Q x := Foresees id Q x
  exempt _ := False
  patient := True
  ret h := .ret h
  bind hx hf := hx.bind hf
  fail _ := .fail
  signal _ := .signal
  exhaust _ := .exhaust
  ask c plain h := .command c (plain.not_looksInto id) fun m => (c.run_good m.good_all h).1
  handle _ hx htake := hx.handle fun s ht => htake s (Value.good_all _) ht
  catchFault hx := hx.catchFault
  inFrame h := .inFrame h
  whileTrue _ _ := .inr trivial
  host _ _ _ _ := trivial

theorem foresight_begins (id : FeedId) (n : Native) (c : CallState) : (foresight id).Begins n c where
  operation h := Foresees.bind (P := fun _ => True) (.command _ (fun h => h) fun _ => trivial)
    fun _ _ => h fun h => h

/-! ### One step -/

/-- What comes after an evaluation cannot bring back what it consumed. -/
theorem Eval.run_bind_feeds {α β : Type} (x : Eval α) (f : α → Eval β) (m : Machine) :
    Machine.FeedsShrink (x m).2 ((x >>= f) m).2 := by
  rw [Eval.run_bind]
  rcases x m with ⟨a | s | e | _, m'⟩
  · exact (f a).run_feeds m'
  all_goals exact .refl m'

namespace Evaluator

variable {ev : Evaluator} {frame : Frame} {m : Machine} {id : FeedId} {units : List Value}

/-- What a step does next: a transition, and all that comes after it. -/
def round (ev : Evaluator) (fuel : Nat) (frame : Frame) (x : Eval (Frame × StepState)) :
    Eval Stepped :=
  x.catchSignal >>= ev.driveOn fuel frame

theorem round_congr {x y : Eval (Frame × StepState)} (h : x m = y m) (fuel : Nat) :
    ev.round fuel frame x m = ev.round fuel frame y m := by
  have hcatch : x.catchSignal m = y.catchSignal m := by
    rw [x.run_catchSignal, y.run_catchSignal, h]
  unfold round
  rw [Eval.run_bind, Eval.run_bind, hcatch]

theorem round_feeds (fuel : Nat) (x : Eval (Frame × StepState)) :
    Machine.FeedsShrink (x m).2 (ev.round fuel frame x m).2 := by
  have hshrink := x.catchSignal.run_bind_feeds (ev.driveOn fuel frame) m
  rw [x.run_catchSignal] at hshrink
  exact hshrink

theorem drive_dispatch_consumes {unit : Value} {fuel : Nat} (hfuel : 0 < fuel)
    (hpos : 0 < m.units frame.feed) :
    (ev.drive fuel frame (.dispatch unit) m).2.units frame.feed < m.units frame.feed := by
  obtain ⟨fuel, rfl⟩ : ∃ n, fuel = n + 1 := ⟨fuel - 1, by omega⟩
  obtain ⟨journal, hnote⟩ := noteState_run frame (StepState.dispatch unit).name m
  rw [drive_of_ne (by simp), Eval.run_bind_of_done hnote]
  have hpos' : 0 < Machine.units { m with journal } frame.feed := hpos
  have hdispatch : Machine.FeedsShrink
      (Machine.updateFeed { m with journal } frame.feed Feed.advance)
      (ev.dispatch frame unit { m with journal }).2 :=
    (Eval.advance frame.feed).run_bind_feeds _ _
  exact (consumed hpos' (hdispatch.trans (round_feeds fuel _))).2

/-- The action that claims `unit`, if `next` is the unit after it. -/
def claimOf (m : Machine) (feed : FeedId) (unit : Value) :
    Option Value → Option (String × Action × Param)
  | some (.word name) =>
    match m.lookup (m.feed feed).scope name with
    | some (.action _ a) => (a.claims? unit).map fun p => (name, a, p)
    | _ => none
  | _ => none

theorem leftClaim?_eq (m : Machine) (feed : FeedId) (unit : Value) :
    leftClaim? feed unit m = (.done (claimOf m feed unit (m.feed feed).peekNext), m) := by
  simp only [leftClaim?, Eval.run_bind, Eval.run_command, Command.run]
  cases (m.feed feed).peekNext with
  | none => rfl
  | some next =>
    cases next with
    | word name =>
      simp only [wordAction?, Eval.run_bind, Eval.scopeOf, Eval.lookup, Eval.run_command, Command.run,
        claimOf]
      cases m.lookup (m.feed feed).scope name with
      | none => rfl
      | some v => cases v <;> rfl
    | _ => rfl

def claimRound (ev : Evaluator) (frame : Frame) (unit : Value)
    (claim : Option (String × Action × Param)) : Eval (Frame × StepState) := do
  let state ← ev.takeClaim frame.feed unit claim
  return (frame, state)

theorem transition_lookbackQuote (ev : Evaluator) (frame : Frame) (unit : Value) (m : Machine) :
    ev.transition frame (.lookbackQuote unit) m =
      ev.claimRound frame unit (claimOf m frame.feed unit (m.feed frame.feed).peekNext) m := by
  have hclaim := leftClaim?_eq m frame.feed unit
  show (ev.lookbackQuote frame.feed unit >>= fun state => pure (frame, state)) m = _
  rw [ev.lookbackQuote_eq, Eval.run_bind, Eval.run_bind_of_done hclaim, claimRound, Eval.run_bind]

theorem round_claim_consumes {unit : Value} {fuel : Nat} (hfuel : 0 < fuel)
    (hpos : 0 < m.units frame.feed) (claim : Option (String × Action × Param)) :
    (ev.round fuel frame (ev.claimRound frame unit claim) m).2.units frame.feed <
      m.units frame.feed := by
  cases claim with
  | none => exact drive_dispatch_consumes hfuel hpos
  | some claim =>
    obtain ⟨label, action, p⟩ := claim
    have hclaim : Machine.FeedsShrink (m.updateFeed frame.feed Feed.advance)
        (ev.takeClaim frame.feed unit (some (label, action, p)) m).2 :=
      (Eval.advance frame.feed).run_bind_feeds _ _
    have hround : Machine.FeedsShrink (ev.takeClaim frame.feed unit (some (label, action, p)) m).2
        (ev.claimRound frame unit (some (label, action, p)) m).2 := Eval.run_bind_feeds _ _ _
    exact (consumed hpos ((hclaim.trans hround).trans (round_feeds fuel _))).2

/-- The fuel lasts for a step that is in this state. -/
structure Supplied (fuel : Nat) (frame : Frame) (state : StepState) (m : Machine) : Prop where
  fed : state.Fed m frame.feed
  need_le : state.need (m.units frame.feed) ≤ fuel

theorem Supplied.pos {fuel : Nat} {state : StepState} (h : Supplied fuel frame state m) :
    0 < fuel := by
  have hneed := h.need_le
  cases state <;> simp only [StepState.need] at hneed <;> omega

theorem Supplied.next {fuel : Nat} {state state' : StepState} {frame' : Frame} {m' : Machine}
    (h : Supplied (fuel + 1) frame state m) (hne : state ≠ .finished)
    (hrun : ev.transition frame state m = (.done (frame', state'), m')) :
    Supplied fuel frame' state' m' := by
  obtain ⟨hfeed, hfollows⟩ := transition_follows h.fed hne hrun
  rw [← hfeed] at hfollows
  refine ⟨hfollows.fed, ?_⟩
  have hneed := h.need_le
  have hless := hfollows.need_lt
  rw [hfeed] at hless ⊢
  omega

theorem Supplied.journal {fuel : Nat} {state : StepState} (h : Supplied fuel frame state m)
    (journal : Array Event) : Supplied fuel frame state { m with journal } := by
  refine ⟨?_, h.need_le⟩
  have hfed := h.fed
  cases state <;> exact hfed

theorem noteState_mirrors (hid : id < m.feeds.size) (name : String) :
    Mirrors id units (noteState frame name) (noteState frame name) m :=
  .command _ hid fun h => h

theorem round_mirrors {x : Eval (Frame × StepState)} {state : StepState} {fuel fuel' : Nat}
    (hid : id < m.feeds.size) (hx : Mirrors id units x x m)
    (hrun : x m = ev.transition frame state m)
    (hrun' : x (m.withUnits id units) = ev.transition frame state (m.withUnits id units))
    (hne : state ≠ .finished) (hs : Supplied (fuel + 1) frame state m)
    (hs' : Supplied (fuel' + 1) frame state (m.withUnits id units))
    (ih : ∀ {frame' : Frame} {state' : StepState} {m' : Machine} {units' : List Value},
      id < m'.feeds.size → Supplied fuel frame' state' m' →
      Supplied fuel' frame' state' (m'.withUnits id units') →
      Mirrors id units' (ev.drive fuel frame' state') (ev.drive fuel' frame' state') m') :
    Mirrors id units (ev.round fuel frame x) (ev.round fuel' frame x) m := by
  refine hx.catchSignal.bind hid fun r m' hr hr' => ?_
  have hid' := Machine.lt_size_of_run hr hid
  rcases Eval.catchSignal_eq_done hr with ⟨⟨frame', state'⟩, rfl, hdone⟩ | ⟨s, rfl, -⟩
  · rcases Eval.catchSignal_eq_done hr' with ⟨_, ⟨⟩, hdone'⟩ | ⟨_, ⟨⟩, -⟩
    rw [hrun] at hdone
    rw [hrun'] at hdone'
    exact ih hid' (hs.next hne hdone) (hs'.next hne hdone')
  · exact (noteState_mirrors hid' "thrown").bind hid' fun _ _ _ _ => .of_still rfl rfl

theorem claimOf_withUnits (hid : id < m.feeds.size) (unit : Value) (next : Option Value) :
    claimOf (m.withUnits id units) id unit next = claimOf m id unit next := by
  have hscope : ((m.withUnits id units).feed id).scope = (m.feed id).scope := by
    rw [m.withUnits_feed_self id units hid]
  have hlookup : ∀ scope name, (m.withUnits id units).lookup scope name = m.lookup scope name :=
    fun _ _ => rfl
  unfold claimOf
  simp only [hscope, hlookup]

section

variable {fuel fuel' : Nat} {unit : Value} {state : StepState} (N : (foresight id).Nested ev)
  (hid : id < m.feeds.size)
  (ih : ∀ {frame' : Frame} {state' : StepState} {m' : Machine} {units' : List Value},
    id < m'.feeds.size → Supplied fuel frame' state' m' →
    Supplied fuel' frame' state' (m'.withUnits id units') →
    Mirrors id units' (ev.drive fuel frame' state') (ev.drive fuel' frame' state') m')
include N hid ih

/-- The unit after the current one is looked at, but then the current one is consumed. -/
theorem lookback_mirrors (hfeed : frame.feed = id)
    (hs : Supplied (fuel + 1) frame (.lookbackQuote unit) m)
    (hs' : Supplied (fuel' + 1) frame (.lookbackQuote unit) (m.withUnits id units)) :
    Mirrors id units (ev.round fuel frame (ev.transition frame (.lookbackQuote unit)))
      (ev.round fuel' frame (ev.transition frame (.lookbackQuote unit))) m := by
  subst hfeed
  have hpos : 0 < m.units frame.feed := hs.fed
  have hfuel : 0 < fuel := by
    have hneed := hs.need_le
    simp only [StepState.need] at hneed
    omega
  have hrun := transition_lookbackQuote ev frame unit m
  have hrun' := transition_lookbackQuote ev frame unit (m.withUnits frame.feed units)
  generalize hclaim : claimOf m frame.feed unit (m.feed frame.feed).peekNext = claim at hrun
  have hround : ev.round fuel frame (ev.transition frame (.lookbackQuote unit)) m =
      ev.round fuel frame (ev.claimRound frame unit claim) m := round_congr hrun fuel
  intro hagree
  -- the unit behind is seen before anything is consumed, but one unit is consumed in the end
  have hconsumes : 1 ≤ m.consumed frame.feed
      (ev.round fuel frame (ev.transition frame (.lookbackQuote unit)) m).2 := by
    have hless : (ev.round fuel frame (ev.claimRound frame unit claim) m).2.units frame.feed <
        m.units frame.feed := round_claim_consumes hfuel hpos claim
    rw [hround, Machine.consumed]
    omega
  have hnext : ((m.withUnits frame.feed units).feed frame.feed).peekNext =
      (m.feed frame.feed).peekNext := by
    rw [m.withUnits_feed_self frame.feed units hid]
    exact (hagree 1 hconsumes).symm
  rw [hnext, claimOf_withUnits hid, hclaim] at hrun'
  have htaken : (foresight frame.feed).Holds {} (StepState.Good Facts.all)
      (ev.takeClaim frame.feed unit claim) :=
    (foresight frame.feed).takeClaim N (Value.good_all unit) fun _ a _ _ => Action.good_all a
  have hclaimed : Foresees frame.feed (fun _ => True) (ev.claimRound frame unit claim) :=
    Foresees.bind htaken fun _ _ => .ret trivial
  have hmirrors := round_mirrors hid (hclaimed.mirrors hid units) hrun.symm hrun'.symm (by simp) hs hs' ih
  exact Mirrors.congr hround (round_congr hrun' fuel') hmirrors hagree

theorem transition_mirrors (hne : state ≠ .finished) (hs : Supplied (fuel + 1) frame state m)
    (hs' : Supplied (fuel' + 1) frame state (m.withUnits id units)) :
    Mirrors id units (ev.round fuel frame (ev.transition frame state))
      (ev.round fuel' frame (ev.transition frame state)) m := by
  by_cases hlook : frame.feed = id ∧ ∃ unit, state = .lookbackQuote unit
  · obtain ⟨hfeed, unit, rfl⟩ := hlook
    exact lookback_mirrors N hid ih hfeed hs hs'
  · have htrans : (foresight id).Holds {} (fun r => r.1.Good Facts.all ∧ r.2.Good Facts.all)
        (ev.transition frame state) := by
      refine (foresight id).transition N ((foresight id).calls (foresight_begins id) N) (Routes.good_frame frame)
        (Routes.good_state state) ?_ ?_
      · intro unit hstate
        have hother : frame.feed ≠ id := fun hfeed => hlook ⟨hfeed, unit, hstate⟩
        exact Foresees.command (.peekNext frame.feed) hother fun _ => Value.goodMaybe_all _
      · exact fun _ _ => Foresees.command (.lookback frame.feed) (fun h => h) fun _ => trivial
    exact round_mirrors hid (Foresees.mirrors htrans hid units) rfl rfl hne hs hs' ih

end

theorem drive_mirrors (N : (foresight id).Nested ev) {fuel fuel' : Nat} {state : StepState}
    (hid : id < m.feeds.size) (hs : Supplied fuel frame state m)
    (hs' : Supplied fuel' frame state (m.withUnits id units)) :
    Mirrors id units (ev.drive fuel frame state) (ev.drive fuel' frame state) m := by
  -- feeds of different length give the two runs different fuel, and neither runs out
  induction fuel generalizing fuel' frame state m units with
  | zero => exact absurd hs.pos (Nat.lt_irrefl 0)
  | succ fuel ih =>
    obtain ⟨fuel', rfl⟩ : ∃ n, fuel' = n + 1 := Nat.exists_eq_add_one.2 hs'.pos
    by_cases hfin : state = .finished
    · subst hfin
      rw [drive_finished, drive_finished]
      exact (noteState_mirrors hid _).bind hid fun _ _ _ _ => .of_still rfl rfl
    rw [drive_of_ne hfin, drive_of_ne hfin]
    refine (noteState_mirrors hid _).bind hid fun _ m₁ h₁ h₁' => ?_
    obtain ⟨journal, hnote⟩ := noteState_run frame state.name m
    obtain ⟨journal', hnote'⟩ := noteState_run frame state.name (m.withUnits id units)
    cases h₁.symm.trans hnote
    have hs₁ := hs'.journal journal'
    rw [← (Prod.mk.inj (h₁'.symm.trans hnote')).2] at hs₁
    exact transition_mirrors N hid ih hfin (hs.journal journal) hs₁

/-- The number of units that are left may differ, and what depends on it with it. -/
theorem unitsLeft_mirrors {α : Type} {feed : FeedId} {f g : Nat → Eval α}
    (h : Mirrors id units (f (m.units feed)) (g ((m.withUnits id units).units feed)) m) :
    Mirrors id units (Eval.unitsLeft feed >>= f) (Eval.unitsLeft feed >>= g) m :=
  .congr (Eval.run_bind_of_done rfl) (Eval.run_bind_of_done rfl) h

theorem evalStep_mirrors (N : (foresight id).Nested ev) (hid : id < m.feeds.size) :
    Mirrors id units (ev.evalStep frame) (ev.evalStep frame) m := by
  have htake : (foresight id).Holds {} (fun _ => True) (Eval.takeNoLookahead frame.feed) :=
    (foresight id).takeNoLookahead
  refine (Foresees.mirrors htake hid units).bind hid fun noLookahead m₁ h₁ _ => ?_
  have hid₁ := Machine.lt_size_of_run h₁ hid
  refine (Mirrors.command .poll hid₁ fun h => h).bind hid₁ fun s? m₂ h₂ _ => ?_
  have hid₂ := Machine.lt_size_of_run h₂ hid₁
  cases s? with
  | some s => exact .of_still rfl rfl
  | none =>
    refine unitsLeft_mirrors (drive_mirrors N hid₂ ⟨trivial, ?_⟩ ⟨trivial, ?_⟩)
    · exact Nat.le_refl _
    · exact Nat.le_refl _

/-! ### Many steps -/

/-- The steps of an evaluator do not look too far into the feed `id`. -/
def StepsMirror (id : FeedId) (ev : Evaluator) : Prop :=
  ∀ (frame : Frame) {m : Machine}, id < m.feeds.size →
    ∀ units, Mirrors id units (ev.step frame) (ev.step frame) m

theorem step_mirrors {α : Type} {next next' : Frame → Eval α} (hsteps : StepsMirror id ev)
    (hid : id < m.feeds.size)
    (hnext : ∀ (frame' : Frame) (m' : Machine) (units' : List Value), id < m'.feeds.size →
      Mirrors id units' (next frame') (next' frame') m') :
    Mirrors id units (ev.step frame >>= fun stepped => stepped.frameOrThrow >>= next)
      (ev.step frame >>= fun stepped => stepped.frameOrThrow >>= next') m := by
  refine (hsteps frame hid units).bind hid fun stepped m₁ h₁ _ => ?_
  unfold Stepped.frameOrThrow
  cases stepped.signal with
  | some s => exact .of_still rfl rfl
  | none => exact hnext stepped.frame m₁ _ (Machine.lt_size_of_run h₁ hid)

theorem atEnd_mirrors (hid : id < m.feeds.size) (feed : FeedId) :
    Mirrors id units (Eval.atEnd feed) (Eval.atEnd feed) m := by
  have hend : (foresight id).Holds {} (fun _ => True) (Eval.atEnd feed) := (foresight id).atEnd
  exact Foresees.mirrors hend hid units

theorem stepToEnd_mirrors (hsteps : StepsMirror id ev) {fuel : Nat} (hid : id < m.feeds.size) :
    Mirrors id units (ev.stepToEnd fuel frame) (ev.stepToEnd fuel frame) m := by
  induction fuel generalizing frame m units with
  | zero =>
    refine (atEnd_mirrors hid frame.feed).bind hid fun ended m₁ _ _ => ?_
    split <;> exact .of_still rfl rfl
  | succ fuel ih =>
    refine (atEnd_mirrors hid frame.feed).bind hid fun ended m₁ h₁ _ => ?_
    split
    · exact .of_still rfl rfl
    · exact step_mirrors hsteps (Machine.lt_size_of_run h₁ hid) fun _ _ _ hid' => ih hid'

theorem collect_mirrors (hsteps : StepsMirror id ev) {fuel : Nat} {feed : FeedId}
    {values : List Value} (hid : id < m.feeds.size) :
    Mirrors id units (reduceUnits.collect ev feed fuel frame values)
      (reduceUnits.collect ev feed fuel frame values) m := by
  induction fuel generalizing frame m units values with
  | zero =>
    refine (atEnd_mirrors hid feed).bind hid fun ended m₁ _ _ => ?_
    split <;> exact .of_still rfl rfl
  | succ fuel ih =>
    refine (atEnd_mirrors hid feed).bind hid fun ended m₁ h₁ _ => ?_
    split
    · exact .of_still rfl rfl
    · refine step_mirrors hsteps (Machine.lt_size_of_run h₁ hid) fun frame' _ _ hid' => ?_
      cases frame'.out.get? with
      | some v => exact ih hid'
      | none => exact ih hid'

theorem fuel_of_invisible (hprogress : ev.Progresses) {suppressed : Bool} {fuel : Nat}
    {stepped : Stepped} {m₁ m₂ m₃ : Machine} {ended : Bool} (hfuel : m.units frame.feed < fuel + 1)
    (h₁ : Eval.onlyIf suppressed (Eval.setNoLookahead frame.feed) m = (.done (), m₁))
    (h₂ : ev.step frame m₁ = (.done stepped, m₂)) (hsignal : stepped.signal = none)
    (h₃ : Eval.atArgumentEnd stepped.frame.feed m₂ = (.done ended, m₃)) (hgo : ended = false) :
    m₃.units stepped.frame.feed < fuel := by
  have hunits₁ := Guard.units_setNoLookahead h₁ frame.feed
  obtain ⟨hfeed, hunits₂⟩ := hprogress frame m₁ stepped m₂ h₂
  obtain ⟨rfl, hended⟩ := Guard.units_of_atArgumentEnd h₃
  have hmore : m₃.units stepped.frame.feed ≠ 0 := by
    intro hzero
    rw [hended hzero] at hgo
    cases hgo
  have hle := hunits₂ hsignal
  rw [hfeed] at hmore ⊢
  omega

theorem stepToVisible_mirrors (hsteps : StepsMirror id ev) (hprogress : ev.Progresses)
    {fuel fuel' : Nat} {suppressed : Bool} (hid : id < m.feeds.size)
    (hfuel : m.units frame.feed < fuel) (hfuel' : (m.withUnits id units).units frame.feed < fuel') :
    Mirrors id units (ev.stepToVisible suppressed fuel frame)
      (ev.stepToVisible suppressed fuel' frame) m := by
  induction fuel generalizing fuel' frame m units with
  | zero => exact absurd hfuel (Nat.not_lt_zero _)
  | succ fuel ih =>
    obtain ⟨fuel', rfl⟩ : ∃ n, fuel' = n + 1 := ⟨fuel' - 1, by omega⟩
    have hset : (foresight id).Holds {} (fun _ => True)
        (Eval.onlyIf suppressed (Eval.setNoLookahead frame.feed)) :=
      (foresight id).onlyIf (fun _ => (foresight id).setNoLookahead) fun _ => trivial
    refine (Foresees.mirrors hset hid units).bind hid fun _ m₁ h₁ h₁' => ?_
    have hid₁ := Machine.lt_size_of_run h₁ hid
    refine (hsteps frame hid₁ _).bind hid₁ fun stepped m₂ h₂ h₂' => ?_
    have hid₂ := Machine.lt_size_of_run h₂ hid₁
    split
    · exact .of_still rfl rfl
    · rename_i hsignal
      have hargument : (foresight id).Holds {} (fun _ => True)
          (Eval.atArgumentEnd stepped.frame.feed) := (foresight id).atArgumentEnd
      refine (Foresees.mirrors hargument hid₂ _).bind hid₂ fun ended m₃ h₃ h₃' => ?_
      split
      · exact .of_still rfl rfl
      · rename_i hgo
        have hopen : ended = false := by
          cases ended with
          | false => rfl
          | true => simp at hgo
        exact ih (Machine.lt_size_of_run h₃ hid₂)
          (fuel_of_invisible hprogress hfuel h₁ h₂ hsignal h₃ hopen)
          (fuel_of_invisible hprogress hfuel' h₁' h₂' hsignal h₃' hopen)

theorem stepVisible_mirrors (hsteps : StepsMirror id ev) (hprogress : ev.Progresses)
    (hid : id < m.feeds.size) : Mirrors id units (ev.stepVisible frame) (ev.stepVisible frame) m := by
  have htake : (foresight id).Holds {} (fun _ => True) (Eval.takeNoLookahead frame.feed) :=
    (foresight id).takeNoLookahead
  refine (Foresees.mirrors htake hid units).bind hid fun suppressed m₁ h₁ _ => ?_
  refine unitsLeft_mirrors (stepToVisible_mirrors hsteps hprogress (Machine.lt_size_of_run h₁ hid) ?_ ?_)
  · exact Nat.lt_succ_self _
  · exact Nat.lt_succ_self _

/-! ### Nested code -/

theorem evalExpression_foresees (hsteps : StepsMirror id ev) (hprogress : ev.Progresses)
    (feed : FeedId) (fulfilling : Bool) :
    Foresees id (Value.GoodMaybe Facts.all) (ev.evalExpression feed fulfilling) where
  returns _ _ _ _ := Value.goodMaybe_all _
  mirrors {m} hid units := by
    refine Mirrors.inFrame ?_
    have hid' : id < (m.enter none).feeds.size := hid
    refine (stepVisible_mirrors hsteps hprogress hid').bind hid' fun stepped m₁ _ _ => ?_
    unfold Stepped.frameOrThrow
    cases stepped.signal with
    | some s => exact .of_still rfl rfl
    | none => exact .of_still rfl rfl

theorem runUnits_foresees (hsteps : StepsMirror id ev) (items : List Value) (scope : ScopeId) :
    Foresees id (Value.GoodMaybe Facts.all) (ev.runUnits items scope) where
  returns _ _ _ _ := Value.goodMaybe_all _
  mirrors {m} hid units := by
    refine (Mirrors.newFeed hid items scope).bind hid fun feed m₁ h₁ _ => Mirrors.inFrame ?_
    have hid₁ := Machine.lt_size_of_run h₁ hid
    have hid' : id < (m₁.enter none).feeds.size := hid₁
    obtain rfl : m.feeds.size = feed := by
      cases h₁
      rfl
    -- the new feed is another one than `id`, so its length is the same on both sides
    have hother : m.feeds.size ≠ id := (Nat.ne_of_lt hid).symm
    refine unitsLeft_mirrors ?_
    rw [Machine.withUnits_units_ne _ _ _ hother]
    exact (stepToEnd_mirrors hsteps hid').bind hid' fun _ _ _ _ => .of_still rfl rfl

theorem reduceUnits_foresees (hsteps : StepsMirror id ev) (items : List Value) (scope : ScopeId) :
    Foresees id (Value.GoodAll Facts.all) (ev.reduceUnits items scope) where
  returns _ values _ _ := Value.goodAll_all values
  mirrors {m} hid units := by
    refine (Mirrors.newFeed hid items scope).bind hid fun feed m₁ h₁ _ => Mirrors.inFrame ?_
    have hid₁ := Machine.lt_size_of_run h₁ hid
    have hid' : id < (m₁.enter none).feeds.size := hid₁
    exact collect_mirrors hsteps hid'

theorem nested_foresees (hsteps : StepsMirror id ev) (hprogress : ev.Progresses) :
    (foresight id).Nested ev where
  runUnits _ := runUnits_foresees hsteps _ _
  evalExpression := evalExpression_foresees hsteps hprogress _ _
  reduceUnits _ := reduceUnits_foresees hsteps _ _

end Evaluator

theorem stepWithin_mirrors (id : FeedId) (patience nesting : Nat) :
    Evaluator.StepsMirror id ⟨stepWithin patience nesting, patience⟩ := by
  induction nesting with
  | zero => exact fun _ _ _ _ => .of_still rfl rfl
  | succ nesting ih =>
    have N := Evaluator.nested_foresees ih (stepWithin_progresses patience nesting)
    exact fun frame m hid units => Evaluator.evalStep_mirrors N hid

/-- A step that consumes `k` units of its feed depends on the first `k + 1` positions of it, units or
the end, and on nothing behind: from a machine that agrees there it consumes as much, ends in the
same way and leaves the same machine, each with its own rest of the feed. -/
theorem stepWithin_foresight (patience nesting k : Nat) (frame : Frame) (m m' : Machine)
    (o : Outcome Stepped) (units : List Value) (hframe : frame.feed < m.feeds.size)
    (hrun : stepWithin patience nesting frame m = (o, m'))
    (hconsumed : m.consumed frame.feed m' = k)
    (hagree : AgreeUpTo k (m.feed frame.feed).units units) :
    let other := m.withUnits frame.feed units
    let other' := m'.withUnits frame.feed (units.drop k)
    stepWithin patience nesting frame other = (o, other') ∧
      other.consumed frame.feed other' = k ∧
      (m'.feed frame.feed).units = (m.feed frame.feed).units.drop k := by
  have hmirrors := stepWithin_mirrors frame.feed patience nesting frame hframe units
  have hunits := Eval.run_units (stepWithin patience nesting frame) hframe
  have hframe' := Machine.lt_size_of_run hrun hframe
  have hk : k ≤ m.units frame.feed := hconsumed ▸ Nat.sub_le _ _
  have hlength : k ≤ units.length := hagree.le_length hk
  rw [Mirrors, hrun, hconsumed] at hmirrors
  rw [hrun, hconsumed] at hunits
  intro other other'
  refine ⟨hmirrors hagree, ?_, hunits⟩
  rw [Machine.consumed, m.withUnits_units_self _ _ hframe, m'.withUnits_units_self _ _ hframe',
    List.length_drop]
  omega

/-- The code `a: 1 2 b`. -/
def assigning : Machine :=
  { Machine.new {} with
    scopes := { cells := #[{ bindings := [("a", .integer 0)] }] }
    feeds := #[{ units := [.setWord "a", .integer 1, .integer 2, .word "b"], scope := 0 }] }

/-- The step that assigns looks at the `2` behind it, which could be an operator, but not at `b`. -/
theorem stepWithin_foresight_assigning :
    let other := assigning.withUnits 0 [.setWord "a", .integer 1, .integer 2]
    ∃ o m', stepWithin 1 3 { id := 0, feed := 0 } assigning = (o, m') ∧
      (m'.feed 0).units = [.integer 2, .word "b"] ∧
      stepWithin 1 3 { id := 0, feed := 0 } other = (o, m'.withUnits 0 [.integer 2]) := by
  have hconsumed :
      assigning.consumed 0 (stepWithin 1 3 { id := 0, feed := 0 } assigning).2 = 2 := by
    decide +kernel
  rcases hrun : stepWithin 1 3 { id := 0, feed := 0 } assigning with ⟨o, m'⟩
  rw [hrun] at hconsumed
  have hagree : AgreeUpTo 2 (assigning.feed 0).units [.setWord "a", .integer 1, .integer 2] := by
    intro i hi
    match i with
    | 0 => rfl
    | 1 => rfl
    | 2 => rfl
  obtain ⟨hother, -, hunits⟩ := stepWithin_foresight 1 3 2 _ _ _ _ _ (by decide) hrun hconsumed hagree
  exact ⟨o, m', rfl, hunits, hother⟩

end Homoicon
