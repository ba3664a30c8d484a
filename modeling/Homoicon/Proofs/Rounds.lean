import Homoicon.Proofs.Adapting
import Homoicon.Proofs.Checkpoints
import Homoicon.Proofs.Loops
import Homoicon.Proofs.Quoting

/-!
# The clock over the rounds of a loop

Only steps are checkpoints, so what a round adds to the clock is up to the code that it runs.  A test
that comes out true has taken a step, and so has a body with something in it; a round that does one of
the two counts a tick, and a stop that is requested is taken up after at most as many rounds as the
period says.  The empty body of a loop with a count takes no step at all.
-/

namespace Homoicon

/-! ### The clock over a run -/

namespace Moment

theorem tick_le (k : Moment) : k.before.tick ≤ k.after.tick := by
  obtain ⟨m, rfl⟩ | hk := k.poll_cases
  · obtain ⟨_, _, _, _, hpoll⟩ := m.poll_eq
    show m.tick ≤ m.poll.2.tick
    rw [hpoll]
    exact Nat.le_succ _
  · exact Nat.le_of_eq (Machine.clock_eq (after_clock hk).1).2.1.symm

end Moment

namespace Connected

variable {m m' : Machine} {t : List Moment}

theorem tick_le (h : Connected m t m') : m.tick ≤ m'.tick :=
  (h.invariant (P := fun n => m.tick ≤ n.tick) (fun k _ hk => Nat.le_trans hk k.tick_le)
    (Nat.le_refl _)).2

theorem stop_stays_due (h : Connected m t m') (hm : m.OnTime) (hstop : m.StopDue)
    (hfew : t.countP Moment.isPoll < m.countdown) :
    m'.StopDue ∧ m'.tick + m'.countdown = m.tick + m.countdown := by
  induction t generalizing m with
  | nil =>
    obtain rfl := h
    exact ⟨hstop, rfl⟩
  | cons k rest ih =>
    obtain ⟨rfl, -, hrest⟩ := h
    have hafter := Moment.after_onTime hm
    obtain ⟨m₀, rfl⟩ | hk := k.poll_cases
    · rw [List.countP_cons_of_pos rfl] at hfew
      have hcount : 1 < m₀.countdown := Nat.lt_of_le_of_lt (Nat.le_add_left 1 _) hfew
      have hwaits : (Moment.asked .poll m₀).after =
          { m₀ with tick := m₀.tick + 1, countdown := m₀.countdown - 1 } :=
        congrArg Prod.snd (Machine.poll_waits hcount)
      have hsum : m₀.tick + 1 + (m₀.countdown - 1) = m₀.tick + m₀.countdown := by omega
      rw [hwaits] at hafter hrest
      have hstop' : Machine.StopDue
          { m₀ with tick := m₀.tick + 1, countdown := m₀.countdown - 1 } := by
        unfold Machine.StopDue
        rw [hsum]
        exact hstop
      obtain ⟨hdue, heq⟩ := ih hrest hafter hstop' (Nat.lt_sub_of_add_lt hfew)
      exact ⟨hdue, heq.trans hsum⟩
    · obtain ⟨hclock, hflag⟩ := Moment.after_clock hk
      obtain ⟨-, htick, hcountdown, hhook, -⟩ := Machine.clock_eq hclock
      rw [List.countP_cons_of_neg (by simp [hk]), ← hcountdown] at hfew
      have hstop' : k.after.StopDue := by
        unfold Machine.StopDue
        rw [htick, hcountdown, hhook]
        exact hstop.imp_left hflag
      obtain ⟨hdue, heq⟩ := ih hrest hafter hstop' hfew
      rw [htick, hcountdown] at heq
      exact ⟨hdue, heq⟩

end Connected

namespace Eval

variable {α β : Type}

theorem run_config (x : Eval α) (m : Machine) : (x m).2.config = m.config :=
  (x.trace_connected m).config

theorem run_tick_le (x : Eval α) (m : Machine) : m.tick ≤ (x m).2.tick :=
  (x.trace_connected m).tick_le

theorem run_onTime (x : Eval α) {m : Machine} (h : m.OnTime) : (x m).2.OnTime :=
  ((x.trace_connected m).onTime h).2

theorem tick_le_bind (x : Eval α) (f : α → Eval β) (m : Machine) :
    (x m).2.tick ≤ ((x >>= f) m).2.tick := by
  rw [run_bind]
  rcases x.run m with ⟨a | s | e | _, m'⟩
  · exact run_tick_le (f a) m'
  · exact Nat.le_refl _
  · exact Nat.le_refl _
  · exact Nat.le_refl _

/-- A run that routes its signals takes up a stop that is due, or ends before the countdown does and
leaves it due. -/
theorem halts_or_stays {x : Eval α} {Q : α → Prop} {past : List Moment} {m : Machine}
    (h : Routes noSignal Q past x m) (htime : m.OnTime) (hstop : m.StopDue) :
    (x m).1 = .thrown Signal.halt ∨
      (x m).2.StopDue ∧ (x m).2.tick + (x m).2.countdown = m.tick + m.countdown := by
  have hconn := x.trace_connected m
  rcases hconn.takes_stop htime hstop with hfew | ⟨pre, n, post, htrace, -, hsignal, -⟩
  · exact .inr (hconn.stop_stays_due htime hstop hfew)
  · have hlaw := h.lawful
    rw [htrace] at hlaw
    have hended := (hlaw.routed (k := .asked .poll n) hsignal).halt_passes.2
    left
    rcases hout : (x m).1 with _ | s | _ | _ <;> rw [hout] at hended <;> cases hended
    rfl

end Eval

/-! ### What counts a tick -/

namespace Evaluator

theorem evalStep_tick (ev : Evaluator) (frame : Frame) (m : Machine) :
    m.tick + 1 ≤ (ev.evalStep frame m).2.tick := by
  rw [evalStep_eq]
  cases m.poll.1 with
  | some s => exact Nat.le_of_eq (m.checked_tick frame.feed).symm
  | none =>
    refine Nat.le_trans (Nat.le_of_eq (m.checked_tick frame.feed).symm) ?_
    exact Eval.run_tick_le _ (m.checked frame.feed)

variable {ev : Evaluator}

/-- Every step of the evaluator begins with a checkpoint. -/
def Counts (ev : Evaluator) : Prop := ∀ frame m, m.tick + 1 ≤ (ev.step frame m).2.tick

theorem stepWithin_counts (patience nesting : Nat) :
    Counts ⟨stepWithin patience (nesting + 1), patience⟩ :=
  fun frame m => evalStep_tick ⟨stepWithin patience nesting, patience⟩ frame m

theorem Counts.runUnits (h : ev.Counts) {units : List Value} (hunits : units ≠ []) {m : Machine}
    (hroom : m.depth < m.config.maxDepth) (scope : ScopeId) :
    m.tick + 1 ≤ (ev.runUnits units scope m).2.tick := by
  let opened : Machine := { m with feeds := m.feeds.push { units, scope } }
  have hfeed : Eval.newFeed units scope m = (.done m.feeds.size, opened) := rfl
  have hopen : ¬opened.config.maxDepth ≤ opened.depth := Nat.not_le.2 hroom
  have hleft : Eval.unitsLeft m.feeds.size (m.opened units scope) =
      (.done units.length, m.opened units scope) := by
    show (Outcome.done ((m.opened units scope).feed m.feeds.size).units.length, _) = _
    rw [m.opened_units units scope]
  have hmore : Eval.atEnd m.freshFrame.feed (m.opened units scope) =
      (.done false, m.opened units scope) := by
    obtain ⟨unit, rest, rfl⟩ := List.exists_cons_of_ne_nil hunits
    show (Outcome.done ((m.opened (unit :: rest) scope).feed m.feeds.size).units.head?.isNone, _)
      = _
    rw [m.opened_units (unit :: rest) scope]
    rfl
  obtain ⟨fuel, hfuel⟩ := Nat.exists_eq_succ_of_ne_zero
    (show units.length ≠ 0 from fun h => hunits (List.eq_nil_of_length_eq_zero h))
  unfold Evaluator.runUnits
  rw [Eval.run_bind_of_done hfeed]
  unfold runFeed withFrame
  rw [Eval.run_inFrame hopen]
  show m.tick + 1 ≤ ((Eval.unitsLeft m.feeds.size >>= fun units =>
    ev.stepToEnd units m.freshFrame >>= fun frame => pure frame.out.last)
      (m.opened units scope)).2.tick
  rw [Eval.run_bind_of_done hleft, hfuel]
  refine Nat.le_trans ?_ (Eval.tick_le_bind _ _ _)
  unfold stepToEnd
  rw [Eval.run_bind_of_done hmore]
  exact Nat.le_trans (h m.freshFrame (m.opened units scope)) (Eval.tick_le_bind _ _ _)

variable {c : Call} {m : Machine}

theorem Counts.runBlock (h : ev.Counts) {items : List Value} (hitems : items ≠ [])
    (hroom : m.depth < m.config.maxDepth) : m.tick + 1 ≤ (ev.runBlock c items m).2.tick :=
  h.runUnits hitems hroom (m.feed c.frame.feed).scope

end Evaluator

/-! ### Rounds -/

namespace Loop

/-- Whether the body is begun in a round that begins at `m`: the test holds, and a frame can be
entered for the body. -/
def begins (test : Eval Bool) (m : Machine) : Bool :=
  match test m with
  | (.done true, m') => decide (m'.depth < m'.config.maxDepth)
  | _ => false

variable {test : Eval Bool} {body : Eval LoopFlow} {spent : Option Value → Eval Value}
  {last : Option Value} {n : Nat} {m : Machine}

theorem begins_iff : begins test m = true ↔
    m.depth < m.config.maxDepth ∧ ∃ m', test m = (.done true, m') := by
  have hstack := test.run_stack m
  have hconfig := test.run_config m
  unfold begins
  split
  · rename_i m' hm
    rw [hm] at hstack hconfig
    rw [decide_eq_true_eq, Machine.depth, hstack, hconfig, hm]
    exact ⟨fun hroom => ⟨hroom, m', rfl⟩, fun h => h.1⟩
  · rename_i hnot
    simp only [Bool.false_eq_true, false_iff, not_and, not_exists]
    exact fun _ m' hm => hnot m' hm

/-- Every round in which a body begins counts a tick. -/
def Counts (test : Eval Bool) (body : Eval LoopFlow) : Prop :=
  ∀ m : Machine, begins test m = true → m.tick + 1 ≤ (round test body m).2.tick

theorem Counts.first (h : Counts test body) (m : Machine) :
    m.tick + [m].countP (begins test) ≤ (round test body m).2.tick := by
  rw [List.countP_singleton]
  split
  · exact h m ‹_›
  · exact (round test body).run_tick_le m

theorem Counts.growth (h : Counts test body) :
    m.tick + (rounds test body n m).countP (begins test) ≤
      (run test body spent last n m).2.tick := by
  induction n generalizing m last with
  | zero => exact (spent last).run_tick_le m
  | succ n ih =>
    have hfirst := h.first m
    rcases run_succ test body spent last n m with ⟨v, -, hrun, hrounds⟩ | ⟨hrun, hrounds⟩
    · rw [hrun, hrounds, ← List.singleton_append, List.countP_append]
      have hrest := @ih (v.or last) (round test body m).2
      omega
    · rw [hrun, hrounds]
      exact hfirst

theorem rounds_suffix {before after : List Machine} {m₀ : Machine}
    (h : rounds test body n m = before ++ m₀ :: after) (htime : m.OnTime) :
    m₀.OnTime ∧ m₀.config = m.config ∧ ∃ k, rounds test body k m₀ = m₀ :: after := by
  induction n generalizing m before with
  | zero => simp [rounds] at h
  | succ n ih =>
    cases before with
    | nil =>
      obtain rfl : m = m₀ := (List.cons.inj h).1
      exact ⟨htime, rfl, n + 1, h⟩
    | cons first before =>
      rcases run_succ test body (fun _ => Eval.exhaust) none n m with
        ⟨v, -, -, hrounds⟩ | ⟨-, hrounds⟩
      · rw [hrounds] at h
        obtain ⟨htime₀, hconfig, hk⟩ :=
          ih (List.cons.inj h).2 ((round test body).run_onTime htime)
        exact ⟨htime₀, hconfig.trans ((round test body).run_config m), hk⟩
      · rw [hrounds] at h
        simp at h

theorem Counts.stops (h : Counts test body)
    (hroutes : ∀ m, ∃ past Q, Routes noSignal Q past (round test body) m)
    (htime : m.OnTime) (hstop : m.StopDue) :
    (rounds test body n m).countP (begins test) ≤ m.countdown := by
  induction n generalizing m with
  | zero => exact Nat.zero_le _
  | succ n ih =>
    have hpos := htime.countdown_pos
    have hfirst := h.first m
    have hone : [m].countP (begins test) ≤ 1 := List.countP_le_length
    rcases run_succ test body (fun _ => Eval.exhaust) none n m with
      ⟨v, hdone, -, hrounds⟩ | ⟨-, hrounds⟩
    · obtain ⟨past, Q, hm⟩ := hroutes m
      obtain hhalt | ⟨hdue, hsum⟩ := Eval.halts_or_stays hm htime hstop
      · rw [hdone] at hhalt
        cases hhalt
      · rw [hrounds, ← List.singleton_append, List.countP_append]
        have hrest := ih ((round test body).run_onTime htime) hdue
        omega
    · rw [hrounds]
      omega

/-- The rounds of a loop that leads from `m` to `m'` are polled: every body adds to the clock, and a
stop that is due at the beginning of a round is taken up before more bodies begin than the period
says. -/
structure Polled (test : Eval Bool) (body : Eval LoopFlow) (n : Nat) (m m' : Machine) : Prop where
  growth : m.tick + (rounds test body n m).countP (begins test) ≤ m'.tick
  each : ∀ m₀ ∈ rounds test body n m, begins test m₀ = true →
    m₀.tick + 1 ≤ (round test body m₀).2.tick
  stops : m.OnTime → ∀ before m₀ after, rounds test body n m = before ++ m₀ :: after → m₀.StopDue →
    (m₀ :: after).countP (begins test) ≤ m.config.pollPeriod

theorem Counts.polled (h : Counts test body)
    (hroutes : ∀ m, ∃ past Q, Routes noSignal Q past (round test body) m) :
    Polled test body n m (run test body spent last n m).2 := by
  refine ⟨h.growth, fun m₀ _ => h m₀, fun htime before m₀ after hrounds hstop => ?_⟩
  obtain ⟨htime₀, hconfig, k, hk⟩ := rounds_suffix hrounds htime
  rw [← hk, ← hconfig]
  exact Nat.le_trans (h.stops hroutes htime₀ hstop) htime₀.countdown_le

end Loop

/-! ### The loops of the standard library -/

namespace Evaluator

variable {ev : Evaluator} {c : Call} {condition body : List Value} {m : Machine}

theorem catchSignal_machine {α : Type} (x : Eval α) (m : Machine) :
    (x.catchSignal m).2 = (x m).2 := by
  simp only [Eval.catchSignal, Eval.run]
  rcases x.run m with ⟨_ | _ | _ | _, _⟩ <;> rfl

theorem runLoopBody_tick_le : (ev.runBlock c body m).2.tick ≤ (ev.runLoopBody c body m).2.tick := by
  unfold runLoopBody Eval.handle
  refine Nat.le_trans ?_ (Eval.tick_le_bind _ _ m)
  rw [catchSignal_machine]
  exact Eval.tick_le_bind _ _ m

theorem Counts.loop (h : ev.Counts) (hbody : body ≠ []) :
    Loop.Counts (pure true) (ev.runLoopBody c body) := by
  intro m hbegins
  have hroom := (Loop.begins_iff.1 hbegins).1
  have hrounds : (Loop.round (pure true) (ev.runLoopBody c body) m).2.tick =
      ((ev.runLoopBody c body >>= fun flow => pure (some flow)) m).2.tick := rfl
  rw [hrounds]
  calc m.tick + 1 ≤ (ev.runBlock c body m).2.tick := h.runBlock hbody hroom
    _ ≤ (ev.runLoopBody c body m).2.tick := runLoopBody_tick_le
    _ ≤ _ := Eval.tick_le_bind _ _ m

theorem condition_ne_nil (h : Loop.begins (ev.holds c condition) m = true) : condition ≠ [] := by
  rintro rfl
  obtain ⟨hroom, m', htrue⟩ := Loop.begins_iff.1 h
  have hnone : ev.runBlock c [] m = _ := runUnits_nil (s := (m.feed c.frame.feed).scope) hroom
  unfold holds at htrue
  rw [Eval.run_bind_of_done hnone] at htrue
  cases htrue

theorem Counts.whileTrue (h : ev.Counts) :
    Loop.Counts (ev.holds c condition) (ev.runLoopBody c body) := by
  intro m hbegins
  have hroom := (Loop.begins_iff.1 hbegins).1
  calc m.tick + 1 ≤ (ev.runBlock c condition m).2.tick :=
        h.runBlock (condition_ne_nil hbegins) hroom
    _ ≤ (ev.holds c condition m).2.tick := Eval.tick_le_bind _ _ m
    _ ≤ _ := Eval.tick_le_bind _ _ m

theorem round_routes (N : routing.Nested ev) (hslot : c.slot 1 = .block body) {test : Eval Bool}
    (htest : ∀ cur, routing.Holds cur (fun _ => True) test) (m : Machine) :
    ∃ past Q, Routes noSignal Q past (Loop.round test (ev.runLoopBody c body)) m := by
  let looping : Native := { name := "", spec := "", operation := .control .loop }
  let cur : Place := { call := some (looping, c.state) }
  have hstands : (Taker.loop body).Stands cur := ⟨looping, c.state, rfl, .inl rfl, hslot⟩
  have hround : routing.Holds cur (fun _ => True) (Loop.round test (ev.runLoopBody c body)) := by
    refine routing.bind (htest cur) fun b _ => ?_
    cases b with
    | true =>
      exact routing.bind (routing.runLoopBody N hstands (Value.goodAll_all body)) fun _ _ =>
        routing.ret trivial
    | false => exact routing.ret trivial
  refine ⟨[.asked (.mark (.operation looping c.state)) m], _, hround _ m ⟨nofun, ?_⟩⟩
  rintro n' c' ⟨⟩
  exact ⟨m, by simp, rfl⟩

theorem run_loop {count : Int64} (hcount : c.slot 0 = .integer count)
    (hslot : c.slot 1 = .block body) : (Operation.control .loop).run ev c =
      ev.loopTimes c body none count.toInt.toNat >>= fun v => pure (Bounce.out v) := by
  simp only [Operation.run, Control.run, Call.integer, Call.block, hcount, hslot]
  rfl

theorem run_whileTrue (hcondition : c.slot 0 = .block condition) (hslot : c.slot 1 = .block body) :
    (Operation.control .whileTrue).run ev c =
      ev.loopWhile c condition body none ev.patience >>= fun v => pure (Bounce.out v) := by
  simp only [Operation.run, Control.run, Call.block, hcondition, hslot]
  rfl

/-- The rounds of both loops are polled.  In a loop with a count the body must have something in
it; the condition of a loop without one takes a step before every body, whatever the body is. -/
theorem rounds_polled (patience nesting : Nat) (c : Call) (body : List Value)
    (hslot : c.slot 1 = .block body) (m : Machine) :
    let ev : Evaluator := ⟨stepWithin patience (nesting + 1), patience⟩
    (∀ count : Int64, c.slot 0 = .integer count → body ≠ [] →
      Loop.Polled (pure true) (ev.runLoopBody c body) count.toInt.toNat m
        ((Operation.control .loop).run ev c m).2) ∧
    ∀ condition : List Value, c.slot 0 = .block condition →
      Loop.Polled (ev.holds c condition) (ev.runLoopBody c body) patience m
        ((Operation.control .whileTrue).run ev c m).2 := by
  intro ev
  have hcounts : ev.Counts := stepWithin_counts patience nesting
  have hnested : routing.Nested ev := Routes.nested patience (nesting + 1)
  -- what an operation makes of the value of its loop does not touch the machine
  have hout : ∀ x : Eval Value, ((x >>= fun v => pure (Bounce.out v)) m).2 = (x m).2 := by
    intro x
    rw [Eval.run_bind]
    rcases x.run m with ⟨_ | _ | _ | _, _⟩ <;> rfl
  refine ⟨fun count hcount hbody => ?_, fun condition hcondition => ?_⟩
  · rw [run_loop hcount hslot, hout, loopTimes_eq]
    refine (hcounts.loop hbody).polled (round_routes hnested hslot fun cur => ?_)
    exact routing.ret trivial
  · rw [run_whileTrue hcondition hslot, hout, loopWhile_eq]
    refine hcounts.whileTrue.polled (round_routes hnested hslot fun cur => ?_)
    exact routing.bind (routing.runBlock hnested (Value.goodAll_all condition)) fun _ _ =>
      routing.ret trivial

def loopCall (count : Int64) (body : List Value) : Call :=
  ⟨default, { action := default, label := "loop", slots := [.integer count, .block body] }⟩

def whileCall (condition body : List Value) : Call :=
  ⟨default, { action := default, label := "while", slots := [.block condition, .block body] }⟩

/-- Three rounds of either loop; those of the `while` are over nothing. -/
theorem rounds_polled_thrice :
    let ev : Evaluator := ⟨stepWithin 3 2, 3⟩
    let m := Machine.new {}
    Loop.Polled (pure true) (ev.runLoopBody (loopCall 3 [.integer 1]) [.integer 1]) 3 m
        ((Operation.control .loop).run ev (loopCall 3 [.integer 1]) m).2 ∧
      Loop.Polled (ev.holds (whileCall [.integer 1] []) [.integer 1])
        (ev.runLoopBody (whileCall [.integer 1] []) []) 3 m
        ((Operation.control .whileTrue).run ev (whileCall [.integer 1] []) m).2 :=
  ⟨(rounds_polled 3 1 (loopCall 3 [.integer 1]) [.integer 1] rfl (Machine.new {})).1 3 rfl (by simp),
    (rounds_polled 3 1 (whileCall [.integer 1] []) [] rfl (Machine.new {})).2 [.integer 1] rfl⟩

/-! ### A body with nothing in it -/

theorem runLoopBody_nil (hroom : m.depth < m.config.maxDepth) :
    ev.runLoopBody c [] m = (.done (.next none), m.afterNothing (m.feed c.frame.feed).scope) := by
  have hnone : ev.runBlock c [] m = _ := runUnits_nil (s := (m.feed c.frame.feed).scope) hroom
  unfold runLoopBody Eval.handle
  simp only [Eval.catchSignal, Eval.run_bind, Eval.run, hnone]
  rfl

/-- A loop over nothing runs through all its rounds without a checkpoint. -/
theorem loopTimes_nil (hroom : m.depth < m.config.maxDepth) (last : Option Value) (n : Nat) :
    (∃ m', ev.loopTimes c [] last n m = (.done (last.getD .null), m') ∧ m'.tick = m.tick) ∧
      (Loop.rounds (pure true) (ev.runLoopBody c []) n m).countP (Loop.begins (pure true)) = n := by
  induction n generalizing m with
  | zero => exact ⟨⟨m, rfl, rfl⟩, rfl⟩
  | succ n ih =>
    have hbody : ev.runLoopBody c [] m = _ := runLoopBody_nil hroom
    have hround : Loop.round (pure true) (ev.runLoopBody c []) m =
        (.done (some (.next none)), m.afterNothing (m.feed c.frame.feed).scope) := by
      show (ev.runLoopBody c [] >>= fun flow => pure (some flow)) m = _
      rw [Eval.run_bind_of_done hbody]
      rfl
    obtain ⟨⟨m', hrun, htick⟩, hcount⟩ := ih (m := m.afterNothing (m.feed c.frame.feed).scope) hroom
    refine ⟨⟨m', ?_, htick⟩, ?_⟩
    · rw [loopTimes, Eval.run_bind_of_done hbody]
      exact hrun
    · have hbegins : Loop.begins (pure true) m = true := Loop.begins_iff.2 ⟨hroom, m, rfl⟩
      rw [Loop.rounds, hround, List.countP_cons_of_pos hbegins]
      exact congrArg (· + 1) hcount

/-- A stop that is requested is not noticed in a hundred rounds over nothing, though every tenth tick
is a checkpoint. -/
theorem exists_unpolled_rounds : ∃ (c : Call) (m : Machine),
    c.slot 0 = .integer 100 ∧ c.slot 1 = .block [] ∧ m.config.pollPeriod = 10 ∧ m.OnTime ∧
      m.StopDue ∧ m.depth < m.config.maxDepth ∧
      let ev := Evaluator.ofConfig m.config
      (Loop.rounds (pure true) (ev.runLoopBody c []) (100 : Int64).toInt.toNat m).countP
          (Loop.begins (pure true)) = 100 ∧
        ∃ m', (Operation.control .loop).run ev c m = (.done (.out .null), m') ∧ m'.tick = m.tick := by
  let m : Machine := { Machine.new { pollInterval := 10 } with interrupt := true }
  have hroom : m.depth < m.config.maxDepth := by decide
  have htime : m.OnTime := (Machine.new_onTime { pollInterval := 10 }).congr rfl rfl rfl
  have hcall : (loopCall 100 []).slot 0 = .integer 100 ∧ (loopCall 100 []).slot 1 = .block [] :=
    ⟨rfl, rfl⟩
  refine ⟨loopCall 100 [], m, hcall.1, hcall.2, rfl, htime, .inl rfl, hroom, ?_⟩
  obtain ⟨⟨m', hrun, htick⟩, hcount⟩ := @loopTimes_nil (ofConfig m.config) (loopCall 100 []) m
    hroom none (100 : Int64).toInt.toNat
  refine ⟨hcount, m', ?_, htick⟩
  rw [run_loop hcall.1 hcall.2, Eval.run_bind_of_done hrun]
  rfl

end Evaluator

end Homoicon
