import Homoicon.Evaluate.Varargs
import Homoicon.Proofs.LeftVarargs
import Homoicon.Proofs.Lookback
import Homoicon.Proofs.Quoting
import Homoicon.Proofs.Renumbering.Owning
import Homoicon.Proofs.Waiting

/-!
# Draining a block

A varargs over a block evaluates the expressions of the block as they are taken, each in a frame of
its own and as an argument is evaluated.  Stepping the block evaluates them in one frame and not as
arguments.  The two come to the same values and the same bindings, except for numbers: every take
enters a frame more.

They part where a step takes on an operator that an argument leaves to its call.  There is no call
that a block is an argument of, so a take that leaves an operator behind leaves it for good.
-/

namespace Homoicon

/-! ### One take -/

namespace Evaluator

variable {ev : Evaluator} {frame f : Frame} {feed : FeedId} {m m₁ : Machine} {v : Value}

theorem atArgumentEnd_run (feed : FeedId) (m : Machine) :
    ∃ b, Eval.atArgumentEnd feed m = (.done b, m) := by
  have hrun := Varargs.isTail_run
    { feed, pull := .evaluate, param := default, label := "", frame := none } m
  exact ⟨_, hrun⟩

theorem takeNoLookahead_restored (feed : FeedId) (m : Machine) :
    (Eval.takeNoLookahead feed >>= fun b => Eval.onlyIf b (Eval.setNoLookahead feed)) m =
      (.done (), m) := by
  have htake : Eval.takeNoLookahead feed m =
      (.done (m.feed feed).noLookahead, m.updateFeed feed fun f => { f with noLookahead := false }) :=
    rfl
  rw [Eval.run_bind_of_done htake]
  cases hlook : (m.feed feed).noLookahead with
  | false =>
    show (_, m.updateFeed feed _) = _
    rw [Machine.updateFeed_of_eq (by rw [← hlook])]
  | true =>
    show (_, (m.updateFeed feed _).updateFeed feed _) = _
    rw [Machine.updateFeed_updateFeed, Machine.updateFeed_of_eq (by rw [← hlook])]

theorem stepVisible_of_step (step : ev.step frame m = (.done { frame := f }, m₁))
    (visible : f.out.stale = false) : ev.stepVisible frame m = (.done { frame := f }, m₁) := by
  obtain ⟨b, m₂, htake, hrest⟩ := Eval.run_bind_eq_done.1 (takeNoLookahead_restored frame.feed m)
  have hleft : Eval.unitsLeft frame.feed m₂ = (.done (m₂.units frame.feed), m₂) := rfl
  obtain ⟨ended, hended⟩ := atArgumentEnd_run f.feed m₁
  unfold stepVisible
  rw [Eval.run_bind_of_done htake, Eval.run_bind_of_done hleft]
  unfold stepToVisible
  rw [Eval.run_bind_of_done hrest, Eval.run_bind_of_done step, Eval.run_bind_of_done hended, visible]
  rfl

theorem evalExpression_of_step {fulfilling : Bool} (room : m.depth < m.config.maxDepth)
    (step : ev.step { id := m.nextFrame, feed, fulfilling } (m.enter none) =
      (.done { frame := f }, m₁))
    (visible : f.out.get? = some v) :
    ev.evalExpression feed fulfilling m = (.done (some v), m₁.leave m.nextFrame) := by
  have hstale : f.out.stale = false := by
    unfold OutCell.get? at visible
    split at visible
    · cases visible
    · exact Bool.eq_false_iff.2 ‹_›
  have hreturn : (do
      let frame ← Stepped.frameOrThrow { frame := f }
      return frame.out.get? : Eval (Option Value)) m₁ = (.done (some v), m₁) := by
    rw [← visible]
    rfl
  unfold evalExpression withFrame
  rw [Eval.run_inFrame (Nat.not_le.2 room),
    Eval.run_bind_of_done (stepVisible_of_step step hstale), hreturn]
  rfl

end Evaluator

/-- The varargs over a block, by the feed that the block is read from. -/
def Varargs.ofBlock (feed : FeedId) : Varargs :=
  { feed, pull := .evaluate, label := "varargs", frame := none
    param :=
      { name := "block", role := .variadic .evaluate
        types := { TypeSet.anyValue with optional := true } } }

theorem TypeSet.anyValue_accepts {v : Value} (h : v ≠ .void) (hnull : v.isNull = false) :
    ({ TypeSet.anyValue with optional := true } : TypeSet).accepts v = true := by
  cases v with
  | null => cases hnull
  | void => exact absurd rfl h
  | _ => rfl

namespace Evaluator

variable {ev : Evaluator} {f : Frame} {feed : FeedId} {m m₁ : Machine} {v : Value}

theorem takeFrom_of_step (room : m.depth < m.config.maxDepth)
    (more : (m.feed feed).atArgumentEnd = false)
    (step : ev.step { id := m.nextFrame, feed, fulfilling := true } (m.enter none) =
      (.done { frame := f }, m₁))
    (visible : f.out.get? = some v) (solid : v ≠ .void) :
    ev.takeFrom (.ofBlock feed) m = (.done v, m₁.leave m.nextFrame) := by
  have htail : (Varargs.ofBlock feed).isTail m = (.done false, m) := by
    rw [Varargs.isTail_run]
    exact congrArg (Outcome.done ·, m) more
  have hpull : ev.pullValue (.ofBlock feed) m = (.done (some v), m₁.leave m.nextFrame) :=
    evalExpression_of_step room step visible
  have haccepts : (!v.isNull && !(Varargs.ofBlock feed).param.types.accepts v) = false := by
    cases hnull : v.isNull with
    | true => rfl
    | false =>
      show (!TypeSet.accepts { TypeSet.anyValue with optional := true } v) = false
      rw [TypeSet.anyValue_accepts solid hnull]
      rfl
  unfold takeFrom
  rw [Eval.run_bind_of_done htail, if_neg Bool.false_ne_true, Eval.run_bind_of_done hpull]
  dsimp only [Option.getD_some]
  rw [haccepts]
  rfl

/-! ### To the tail -/

/-- Takes values from a varargs until it is at its tail, in at most so many rounds. -/
def drain (ev : Evaluator) (va : Varargs) : Nat → Eval (List Value)
  | 0 => Eval.exhaust
  | rounds + 1 => do
    if ← va.isTail then return []
    else
      let v ← ev.takeFrom va
      let rest ← ev.drain va rounds
      return v :: rest

theorem drain_tail {va : Varargs} (h : (m.feed va.feed).atArgumentEnd = true) (rounds : Nat) :
    ev.drain va (rounds + 1) m = (.done [], m) := by
  have htail := va.isTail_run m
  rw [h] at htail
  unfold drain
  rw [Eval.run_bind_of_done htail]
  rfl

theorem drain_take {va : Varargs} {rounds : Nat} {rest : List Value} {m₂ : Machine}
    (more : (m.feed va.feed).atArgumentEnd = false) (htake : ev.takeFrom va m = (.done v, m₁))
    (hrest : ev.drain va rounds m₁ = (.done rest, m₂)) :
    ev.drain va (rounds + 1) m = (.done (v :: rest), m₂) := by
  have htail := va.isTail_run m
  rw [more] at htail
  unfold drain
  rw [Eval.run_bind_of_done htail, if_neg Bool.false_ne_true, Eval.run_bind_of_done htake,
    Eval.run_bind_of_done hrest]
  rfl

end Evaluator

/-! ### Steps -/

/-- A step that produced a value, and where it began. -/
structure StepTaken where
  frame : Frame
  start : Machine
  value : Value

namespace Evaluator

/-- Steps to the end of a feed.  Each of them produces a value, which is not the void placeholder. -/
inductive Steps (ev : Evaluator) : Frame → Machine → List StepTaken → Machine → Prop
  | nil {frame : Frame} {m : Machine} (ended : (m.feed frame.feed).units = []) :
    Steps ev frame m [] m
  | cons {frame frame' : Frame} {m m₁ m' : Machine} {v : Value} {taken : List StepTaken}
    (more : (m.feed frame.feed).units ≠ [])
    (step : ev.step frame m = (.done { frame := frame' }, m₁))
    (visible : frame'.out.get? = some v) (solid : v ≠ .void)
    (rest : Steps ev frame' m₁ taken m') : Steps ev frame m (⟨frame, m, v⟩ :: taken) m'

variable {ev : Evaluator} {frame : Frame} {feed : FeedId} {m m' : Machine} {taken : List StepTaken}

theorem Steps.stack (h : ev.Steps frame m taken m') : m'.stack = m.stack := by
  induction h with
  | nil _ => rfl
  | @cons frame _ m _ _ _ _ _ step _ _ _ ih =>
    have hstack := (ev.step frame).run_stack m
    rw [step] at hstack
    exact ih.trans hstack

theorem Steps.collect (h : ev.Steps frame m taken m') (progress : ev.Progresses)
    (hfeed : frame.feed = feed) {fuel : Nat} (hfuel : m.units feed ≤ fuel) (values : List Value) :
    reduceUnits.collect ev feed fuel frame values m =
      (.done (values.reverse ++ (taken.map (·.value)).filter fun v => !v.isNull), m') := by
  induction h generalizing fuel values with
  | nil ended =>
    rw [collect_ended (hfeed ▸ ended), List.map_nil, List.filter_nil, List.append_nil]
  | @cons frame frame' m m₁ m' v taken more step visible solid rest ih =>
    rw [hfeed] at more
    obtain ⟨unit, units, hunits⟩ := List.exists_cons_of_ne_nil more
    have hpos : 0 < m.units feed := List.length_pos_of_ne_nil more
    obtain ⟨hsame, hless⟩ := progress frame m _ _ step
    have hless : m₁.units feed ≤ m.units feed - 1 := hfeed ▸ hless rfl
    obtain ⟨fuel, rfl⟩ : ∃ k, fuel = k + 1 := ⟨fuel - 1, by omega⟩
    rw [collect_value hunits step visible, ih (hsame.trans hfeed) (by omega), List.map_cons]
    cases hnull : v.isNull with
    | true => simp [hnull]
    | false => simp [hnull]

/-! ### Both together -/

section

variable {patience nesting : Nat}

theorem room_of_run {α : Type} {x : Eval α} {o : Outcome α} {m m' : Machine}
    (room : m.depth < m.config.maxDepth) (h : x m = (o, m')) : m'.depth < m'.config.maxDepth := by
  have hstack := x.run_stack m
  have hconfig := (x.trace_connected m).config
  rw [h] at hstack hconfig
  rwa [hconfig, Machine.depth, hstack]

/-- What a step produces that evaluates an argument, a take on a tracked machine gives. -/
theorem take_of_step {d m₁ : Machine} {σ : Renumbering} {f : Frame} {v : Value} {id : FrameId}
    (track : σ.Tracks m (d.enter none)) (room : d.depth < d.config.maxDepth)
    (more : (d.feed feed).atArgumentEnd = false)
    (step : stepWithin patience (nesting + 1) { id, feed, fulfilling := true } m =
      (.done { frame := f }, m₁))
    (visible : f.out.get? = some v) (solid : v ≠ .void) :
    ∃ (v' : Value) (d₁ : Machine),
      takeFrom ⟨stepWithin patience (nesting + 1), patience⟩ (.ofBlock feed) d = (.done v', d₁) ∧
      (σ.skipFrame m₁.nextFrame).Tracks m₁ (d₁.enter none) ∧
      ∀ ρ : Renumbering, ρ.Extends σ m₁ → v.Matches ρ v' := by
  obtain ⟨htrack, hmatches⟩ := track.run fun ρ _ => ρ.steps_stepWithin patience (nesting + 1)
    (Frame.Matches.fresh id d.nextFrame feed true)
  rw [step] at htrack hmatches
  cases hrun : stepWithin patience (nesting + 1)
      { id := d.nextFrame, feed, fulfilling := true } (d.enter none) with | mk o d₁ =>
  have hstack : d₁.stack = ⟨d.nextFrame, none⟩ :: d.stack := by
    have hkept := (stepWithin patience (nesting + 1)
      { id := d.nextFrame, feed, fulfilling := true }).run_stack (d.enter none)
    rwa [hrun] at hkept
  rw [hrun] at htrack hmatches
  obtain ⟨g, v', rfl, hv'⟩ : ∃ g v', o = .done { frame := g } ∧ g.out.get? = some v' := by
    cases hmatches σ (.refl σ m₁) with
    | @done _ s hs =>
      obtain ⟨g, signal⟩ := s
      have hsignal := hs.signal
      have hvalue := hs.frame.get?
      dsimp only at hsignal hvalue
      cases hsignal
      rw [visible] at hvalue
      generalize hget : g.out.get? = o at hvalue
      cases hvalue
      exact ⟨g, _, rfl, hget⟩
  have hvalue : ∀ ρ : Renumbering, ρ.Extends σ m₁ → v.Matches ρ v' := by
    intro ρ hρ
    cases hmatches ρ hρ with
    | done hs =>
      have hvalue := hs.frame.get?
      dsimp only at hvalue
      rw [visible, hv'] at hvalue
      cases hvalue
      assumption
  have hsolid : v' ≠ .void := by
    rintro rfl
    cases hvalue σ (.refl σ m₁)
    exact solid rfl
  exact ⟨v', _, takeFrom_of_step room more hrun hv' hsolid, htrack.reenter hstack, hvalue⟩

/-- What the steps of a frame produce can be taken, one value after the other, on a machine that is
tracked as it stands when it has entered a frame. -/
theorem Steps.drain {d : Machine} {σ : Renumbering} {rounds : Nat}
    (h : Steps ⟨stepWithin patience (nesting + 1), patience⟩ frame m taken m')
    (calm : ∀ t ∈ taken, CalmStep ⟨stepWithin patience nesting, patience⟩ t.frame t.start)
    (hfeed : frame.feed = feed) (hsize : feed < m.feeds.size)
    (plain : Value.comma ∉ (m.feed feed).units) (track : σ.Tracks m (d.enter none))
    (room : d.depth < d.config.maxDepth) (hrounds : taken.length < rounds) :
    ∃ (ρ : Renumbering) (vs : List Value) (d' : Machine),
      Evaluator.drain ⟨stepWithin patience (nesting + 1), patience⟩ (.ofBlock feed) rounds d =
        (.done vs, d') ∧
      ρ.Extends σ m ∧ Value.AllMatch ρ (taken.map (·.value)) vs ∧ m'.Matches ρ (d'.enter none) := by
  -- every take enters a frame of its own, so the renumbering grows with every step
  induction h generalizing d σ rounds with
  | @nil frame m ended =>
    obtain ⟨rounds, rfl⟩ : ∃ k, rounds = k + 1 := ⟨rounds - 1, by omega⟩
    have hm := track.same σ (.refl σ m)
    have htail : (d.feed feed).atArgumentEnd = true := by
      have hfeeds : (m.feed feed).Matches σ (d.feed feed) := hm.feeds feed
      rw [hfeeds.atArgumentEnd, ← hfeed, Feed.atArgumentEnd, Feed.isEnd, ended]
      rfl
    exact ⟨σ, [], d, drain_tail htail rounds, .refl σ m, .nil, hm⟩
  | @cons frame frame' m m₁ m' v taken more step visible solid rest ih =>
    obtain ⟨rounds, rfl⟩ : ∃ k, rounds = k + 1 := ⟨rounds - 1, by omega⟩
    obtain ⟨hcalm, calm⟩ := List.forall_mem_cons.1 calm
    rw [List.length_cons] at hrounds
    have hopen : (d.feed feed).atArgumentEnd = false := by
      have hfeeds : (m.feed feed).Matches σ (d.feed feed) := (track.same σ (.refl σ m)).feeds feed
      rw [hfeeds.atArgumentEnd]
      rw [hfeed] at more
      obtain ⟨unit, units, hunits⟩ := List.exists_cons_of_ne_nil more
      refine Feed.atArgumentEnd_cons hunits fun hcomma => plain ?_
      rw [hunits, hcomma]
      exact List.mem_cons_self
    obtain ⟨f, hstep, hagrees⟩ := hcalm.evalStep step
    rw [hfeed] at hstep
    obtain ⟨v', d₁, htake, htrack, hvalue⟩ :=
      take_of_step track room hopen hstep (hagrees.value.trans visible) solid
    have hsame : frame'.feed = frame.feed := (stepWithin_progresses _ _ _ _ _ _ step).1
    have hfeeds : Machine.FeedsShrink m m₁ := .of_run step
    have hroom := room_of_run room htake
    have hrounds : taken.length < rounds := by omega
    obtain ⟨ρ, vs, d', hdrain, hρ, hvs, hd'⟩ := ih calm (hsame.trans hfeed)
      (Nat.lt_of_lt_of_le hsize hfeeds.size_le)
      (fun hcomma => plain ((hfeeds.suffix feed hsize).subset hcomma)) htrack hroom hrounds
    have hσ : ρ.Extends σ m₁ := hρ.trans (σ.extends_skipFrame m₁)
    have hle : m.Precedes m₁ := by
      have := ((stepWithin patience (nesting + 1)) frame).precedes_run m
      rwa [show (stepWithin patience (nesting + 1) frame) m = _ from step] at this
    exact ⟨ρ, v' :: vs, d', drain_take hopen htake hdrain, hσ.of_precedes hle,
      .cons (hvalue ρ hσ) hvs, hd'⟩

theorem Steps.reduceUnits {items : List Value} {scope : ScopeId}
    (h : ev.Steps { id := m.nextFrame, feed := m.feeds.size }
      ((Eval.newFeed items scope m).2.enter none) taken m')
    (progress : ev.Progresses) (room : m.depth < m.config.maxDepth) :
    ev.reduceUnits items scope m =
      (.done ((taken.map (·.value)).filter fun v => !v.isNull), m'.leave m.nextFrame) := by
  have hfuel : (m.opened items scope).units m.feeds.size ≤ items.length :=
    Nat.le_of_eq (congrArg List.length (m.opened_units items scope))
  let body : FeedId → Frame → Eval (List Value) := fun _ frame =>
    reduceUnits.collect ev frame.feed items.length frame []
  have hbody : body m.feeds.size m.freshFrame (m.opened items scope) =
      (stoppedBy none ((taken.map (·.value)).filter fun v => !v.isNull), m') :=
    h.collect progress rfl hfuel []
  exact runOnNewFeed room hbody

/-- A block without barriers that can be stepped to its end, every step with a value that is not the
void placeholder, can be drained, unless a step comes to an operator that an argument leaves to its
call.  What is taken are the values of the steps, in their order, and the machine is left as by
the steps, with the same bindings, except for the numbers handed out since.  Values without numbers
are exactly the same.  Reducing the block gives the values without the nulls. -/
theorem drain_blockVarargs {items : List Value} {scope : ScopeId} {rounds : Nat}
    (owns : m.Owns items) (room : m.depth < m.config.maxDepth) (plain : Value.comma ∉ items)
    (steps : Steps ⟨stepWithin patience (nesting + 1), patience⟩
      { id := m.nextFrame, feed := m.feeds.size } ((Eval.newFeed items scope m).2.enter none) taken m')
    (calm : ∀ t ∈ taken, CalmStep ⟨stepWithin patience nesting, patience⟩ t.frame t.start)
    (hrounds : taken.length < rounds) :
    ∃ (ρ : Renumbering) (id : Identity) (va : Varargs) (vs : List Value) (d d' : Machine),
      blockVarargs items scope m = (.done (.varargs id va), d) ∧
      drain ⟨stepWithin patience (nesting + 1), patience⟩ va rounds d = (.done vs, d') ∧
      ρ.Extends .same m ∧ Value.AllMatch ρ (taken.map (·.value)) vs ∧
      (Value.allNumberless (taken.map (·.value)) = true → vs = taken.map (·.value)) ∧
      (m'.leave m.nextFrame).Matches ρ d' ∧
      Evaluator.reduceUnits ⟨stepWithin patience (nesting + 1), patience⟩ items scope m =
        (.done ((taken.map (·.value)).filter fun v => !v.isNull), m'.leave m.nextFrame) := by
  let opened : Machine := (Eval.newFeed items scope m).2
  let d : Machine := { opened with nextIdentity := m.nextIdentity + 1 }
  have hblock : blockVarargs items scope m =
      (.done (.varargs m.nextIdentity (.ofBlock m.feeds.size)), d) := rfl
  -- making the varargs hands out one identity that the steps of the block do not
  let σ : Renumbering := Renumbering.same.skipIdentity m.nextIdentity
  have hσ : ∀ ρ : Renumbering, ρ.Extends σ (opened.enter none) → ρ.Extends .same m := by
    intro ρ hρ
    have hle : m.Precedes (opened.enter none) := ⟨Nat.le_succ _, Nat.le_refl _⟩
    exact (hρ.of_precedes hle).trans (Renumbering.same.extends_skipIdentity m)
  have track : σ.Tracks (opened.enter none) (d.enter none) := by
    refine ⟨fun ρ hρ => ?_, fun n _ => rfl, fun n hn => ?_⟩
    · obtain ⟨hm, hitems⟩ := owns ρ (hσ ρ hρ)
      exact { hm.newFeed scope hitems with labels := rfl }
    · have hn : m.nextIdentity ≤ n := hn
      show (if n < m.nextIdentity then n else n + 1) + m.nextIdentity = n + (m.nextIdentity + 1)
      rw [if_neg (Nat.not_lt.2 hn)]
      omega
  have hfeed : (opened.enter none).feed m.feeds.size = { units := items, scope } := by
    rw [Machine.feed_eq]
    show (m.feeds.push _)[m.feeds.size]?.getD default = _
    rw [Array.getElem?_push_size]
    rfl
  have hsize : m.feeds.size < (opened.enter none).feeds.size := by
    show _ < (m.feeds.push _).size
    rw [Array.size_push]
    exact Nat.lt_succ_self _
  obtain ⟨ρ, vs, d', hdrain, hρ, hvs, hleft⟩ :=
    steps.drain calm rfl hsize (by rwa [hfeed]) track room hrounds
  have hstack : m'.stack = ⟨m.nextFrame, none⟩ :: m.stack := steps.stack
  have hlabels : d'.stack.map (·.label) = (m'.leave m.nextFrame).stack.map (·.label) := by
    have hboth : none :: d'.stack.map (·.label) = m'.stack.map (·.label) := hleft.labels
    rw [hstack] at hboth
    rw [Machine.stack_leave hstack]
    exact (List.cons.inj hboth).2
  exact ⟨ρ, _, _, vs, d, d', hblock, hdrain, hσ ρ hρ, hvs, hvs.eq_of_numberless,
    { hleft with labels := hlabels }, steps.reduceUnits (stepWithin_progresses _ _) room⟩

end

/-- The machine in the frame of the block `[5 null]`, with the null itself in it, after so many steps
have begun. -/
def nulling (begun : Nat) (rest : List Value) (lookback : Option Value) : Machine :=
  { Machine.new {} with
    tick := begun
    countdown := (Machine.new {}).countdown - begun
    nextFrame := 2
    stack := [⟨1, none⟩]
    feeds := #[{ units := rest, scope := 0, lookback }] }

/-- Taking the values of `[5 null]` gives 5 and null, of which reducing the block leaves 5. -/
theorem drain_blockVarargs_nulling : ∃ (va : Varargs) (d d' n : Machine),
    blockVarargs [.integer 5, .null] 0 (Machine.new {}) = (.done (.varargs 0 va), d) ∧
      drain ⟨stepWithin 1 3, 1⟩ va 3 d = (.done [.integer 5, .null], d') ∧
      reduceUnits ⟨stepWithin 1 3, 1⟩ [.integer 5, .null] 0 (Machine.new {}) =
        (.done [.integer 5], n) := by
  let start : Frame := { id := 1, feed := 0 }
  let next : Frame := { start with out := ⟨some (.integer 5), false⟩ }
  let last : Frame := { start with out := ⟨some .null, false⟩ }
  let opened (begun : Nat) : Machine := nulling begun [.integer 5, .null] none
  let between (begun : Nat) : Machine := nulling begun [.null] (some (.integer 5))
  let left : Machine := nulling 2 [] (some .null)
  have owns : (Machine.new {}).Owns [.integer 5, .null] := (Machine.Owns.new {} false).numberless rfl
  have first : stepWithin 1 3 start (opened 0) = (.done { frame := next }, between 1) := rfl
  have second : stepWithin 1 3 next (between 1) = (.done { frame := last }, left) := rfl
  have steps : Steps ⟨stepWithin 1 3, 1⟩ start (opened 0)
      [⟨start, opened 0, .integer 5⟩, ⟨next, between 1, .null⟩] left :=
    .cons (List.cons_ne_nil _ _) first rfl (fun h => by cases h) <|
      .cons (List.cons_ne_nil _ _) second rfl (fun h => by cases h) <| .nil rfl
  have calmFirst : CalmStep ⟨stepWithin 1 2, 1⟩ start (opened 0) := by
    refine .next (fun h => by cases h) (rfl : _ = (_, opened 1)) ?_
    refine .next (fun h => by cases h) (rfl : _ = (_, opened 1)) ?_
    refine .next (fun h => by cases h) (rfl : _ = (_, between 1)) ?_
    refine .next (fun _ => Machine.not_holdsUp fun name h => ?_) (rfl : _ = (_, between 1)) .finished
    cases h
  have calmSecond : CalmStep ⟨stepWithin 1 2, 1⟩ next (between 1) := by
    refine .next (fun h => by cases h) (rfl : _ = (_, between 2)) ?_
    refine .next (fun h => by cases h) (rfl : _ = (_, between 2)) ?_
    refine .next (fun h => by cases h) (rfl : _ = (_, left)) ?_
    refine .next (fun _ => Machine.not_holdsUp fun name h => ?_) (rfl : _ = (_, left)) .finished
    cases h
  have calm : ∀ t ∈ [(⟨start, opened 0, .integer 5⟩ : StepTaken), ⟨next, between 1, .null⟩],
      CalmStep ⟨stepWithin 1 2, 1⟩ t.frame t.start :=
    List.forall_mem_cons.2 ⟨calmFirst, List.forall_mem_singleton.2 calmSecond⟩
  have steps : Steps ⟨stepWithin 1 3, 1⟩ start
      ((Eval.newFeed [.integer 5, .null] 0 (Machine.new {})).2.enter none)
      [⟨start, opened 0, .integer 5⟩, ⟨next, between 1, .null⟩] left := steps
  obtain ⟨ρ, id, va, vs, d, d', hblock, hdrain, -, -, hsame, -, hreduce⟩ :=
    drain_blockVarargs owns (by decide) (by simp) steps calm (Nat.lt_succ_self 2)
  obtain rfl := hsame rfl
  cases hblock
  exact ⟨_, _, d', _, rfl, hdrain, hreduce⟩

/-- A machine whose word `then` stands for an operator that waits for the enclosing call. -/
def branching : Machine :=
  { Machine.new {} with
    scopes := { cells := #[{ bindings := [("then", .action 0
      { label := some "then"
        params := [{ name := "left", role := .normal }, { name := "branch", role := .normal }]
        signature := 1
        dispatcher := .interpreted [.word "branch"] 0
        exemplar := none
        enfixed := true
        deferral := .defer
        description := none })] }] } }

/-- Reducing `[1 then 2]` takes the operator on.  The first take leaves it to a call that is not
there, so the second take finds it without a left operand. -/
example :
    let block : List Value := [.integer 1, .word "then", .integer 2]
    let ev : Evaluator := ⟨stepWithin 2 5, 2⟩
    let first := ev.takeFrom (.ofBlock 0) (blockVarargs block 0 branching).2
    (ev.reduceUnits block 0 branching).1.result?.map (·.map Value.mold) = some ["2"] ∧
      first.1.result?.map Value.mold = some "1" ∧
      (ev.takeFrom (.ofBlock 0) first.2).1.result?.isNone = true := by
  decide +kernel

end Evaluator

end Homoicon
