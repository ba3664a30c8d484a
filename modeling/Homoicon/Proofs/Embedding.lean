import Homoicon.Proofs.LeftVarargs
import Homoicon.Proofs.Quoting

/-!
# Runs inside of runs

A run of an evaluation holds the run of another one if it comes to it and then makes something of its
outcome, without another call.  The run of code that is one call holds the run of that call, and this
one holds the run of the action once the slots are filled.
-/

namespace Homoicon

/-! ### Feeds at their end -/

namespace Machine

/-- The feed is at its end, with the unit that was consumed last behind it. -/
structure Spent (m : Machine) (id : FeedId) (unit : Value) : Prop where
  lt : id < m.feeds.size
  units : (m.feed id).units = []
  lookback : (m.feed id).lookback = some unit

variable {m m' : Machine} {id : FeedId} {unit : Value}

theorem Spent.of_feeds (h : m.Spent id unit) (hfeeds : m'.feeds = m.feeds) : m'.Spent id unit := by
  have hfeed : m'.feed id = m.feed id := by rw [Machine.feed, Machine.feed, hfeeds]
  exact ⟨hfeeds ▸ h.lt, hfeed ▸ h.units, hfeed ▸ h.lookback⟩

theorem Spent.updateFeed (h : m.Spent id unit) (j : FeedId) {f : Feed → Feed}
    (hf : ∀ feed : Feed, feed.units = [] → (f feed).units = [] ∧ (f feed).lookback = feed.lookback) :
    (m.updateFeed j f).Spent id unit := by
  have hlt : id < (m.updateFeed j f).feeds.size := by
    rw [Machine.updateFeed, Array.size_modify]
    exact h.lt
  obtain ⟨hunits, hlookback⟩ := hf (m.feed id) h.units
  by_cases hj : j = id ∧ id < m.feeds.size
  · have hfeed : (m.updateFeed j f).feed id = f (m.feed id) := by rw [feed_updateFeed, if_pos hj]
    exact ⟨hlt, by rw [hfeed, hunits], by rw [hfeed, hlookback, h.lookback]⟩
  · have hfeed : (m.updateFeed j f).feed id = m.feed id := by rw [feed_updateFeed, if_neg hj]
    exact ⟨hlt, by rw [hfeed, h.units], by rw [hfeed, h.lookback]⟩

end Machine

theorem Command.run_spent {β : Type} (c : Command β) {m : Machine} {id : FeedId} {unit : Value}
    (h : m.Spent id unit) : (c.run m).2.Spent id unit := by
  rcases c.run_feeds_cases m with hfeeds | ⟨feed, hfeeds⟩ | ⟨j, f, hrun, hf⟩
  · exact h.of_feeds hfeeds
  · have hfeed : (c.run m).2.feed id = m.feed id := by
      rw [Machine.feed_eq, Machine.feed_eq, hfeeds, Array.getElem?_push_lt h.lt,
        Array.getElem?_eq_getElem h.lt]
    refine ⟨?_, hfeed ▸ h.units, hfeed ▸ h.lookback⟩
    rw [hfeeds, Array.size_push]
    exact Nat.lt_succ_of_lt h.lt
  · rw [hrun]
    refine h.updateFeed j fun feed hunits => ?_
    rcases hf with rfl | hf
    · unfold Feed.advance
      rw [hunits]
      exact ⟨hunits, rfl⟩
    · rw [(hf feed).1, (hf feed).2]
      exact ⟨hunits, rfl⟩

theorem Moment.after_spent {k : Moment} {id : FeedId} {unit : Value} (h : k.before.Spent id unit) :
    k.after.Spent id unit := by
  cases k with
  | asked c m => exact c.run_spent h
  | entered label m => exact h.of_feeds rfl
  | left frame m => exact h.of_feeds rfl
  | _ => exact h

theorem Eval.run_spent {α : Type} (x : Eval α) {m : Machine} {id : FeedId} {unit : Value}
    (h : m.Spent id unit) : (x m).2.Spent id unit :=
  ((x.trace_connected m).invariant (P := fun m => m.Spent id unit)
    (fun _ _ hk => Moment.after_spent hk) h).2

/-! ### Runs that hold a run -/

/-- The name by which an action is invoked. -/
def Moment.invoked? : Moment → Option String
  | .asked (.note (.invoked label _ _)) _ => some label
  | _ => none

/-- The names by which actions are invoked during a run, in order. -/
def invocations (t : List Moment) : List String := t.filterMap Moment.invoked?

theorem invocations_append (t t' : List Moment) :
    invocations (t ++ t') = invocations t ++ invocations t' :=
  List.filterMap_append

theorem invocations_bind {α β : Type} {x : Eval α} {f : α → Eval β} {a : α} {m m' : Machine}
    (h : x m = (.done a, m')) : invocations ((x >>= f).trace m) =
      invocations (x.trace m) ++ invocations ((f a).trace m') := by
  rw [Eval.trace_bind, h, invocations_append]

theorem invocations_eq_nil {t : List Moment} (h : ∀ name, t.countP (Moment.calls name) = 0) :
    invocations t = [] := by
  refine List.filterMap_eq_nil_iff.2 fun k hk => ?_
  cases hname : k.invoked? with
  | none => rfl
  | some name =>
    have hcalls : k.calls name = true := by
      unfold Moment.invoked? at hname
      split at hname
      · cases hname
        simp [Moment.calls]
      · cases hname
    exact absurd hcalls (List.countP_eq_zero.1 (h name) k hk)

def Outcome.andThen {α β : Type} (o : Outcome α) (f : α → Outcome β) : Outcome β :=
  match o with
  | .done a => f a
  | .thrown s => .thrown s
  | .failed e => .failed e
  | .exhausted => .exhausted

namespace Eval

variable {α β γ : Type} {x : Eval α} {y : Eval β} {z : Eval γ} {m m' m₁ m₂ : Machine}
  {called called' : List String} {finish : Outcome β → Outcome α}

/-- The run of `x` from `m` invokes the actions `called`, comes to the run of `y` from `m₁` and ends
with what `finish` makes of its outcome, without another call.  A feed that is at its end after the
inner run is so after the outer one. -/
structure Embeds (x : Eval α) (m : Machine) (called : List String) (y : Eval β) (m₁ : Machine)
    (finish : Outcome β → Outcome α) : Prop where
  trace : ∃ before after, x.trace m = before ++ y.trace m₁ ++ after ∧
    invocations before = called ∧ invocations after = []
  outcome : (x m).1 = finish (y m₁).1
  spent : ∀ {id unit}, (y m₁).2.Spent id unit → (x m).2.Spent id unit

namespace Embeds

theorem refl (x : Eval α) (m : Machine) : x.Embeds m [] x m id :=
  ⟨⟨[], [], by simp, rfl, rfl⟩, rfl, fun h => h⟩

theorem congr {finish' : Outcome β → Outcome α} (h : x.Embeds m called y m₁ finish)
    (hfinish : finish (y m₁).1 = finish' (y m₁).1) : x.Embeds m called y m₁ finish' :=
  ⟨h.trace, h.outcome.trans hfinish, h.spent⟩

theorem trans {finish' : Outcome γ → Outcome β} (h : x.Embeds m called y m₁ finish)
    (h' : y.Embeds m₁ called' z m₂ finish') :
    x.Embeds m (called ++ called') z m₂ (finish ∘ finish') := by
  obtain ⟨before, after, htrace, hbefore, hafter⟩ := h.trace
  obtain ⟨before', after', htrace', hbefore', hafter'⟩ := h'.trace
  refine ⟨⟨before ++ before', after' ++ after, ?_, ?_, ?_⟩, ?_, fun hspent => h.spent (h'.spent hspent)⟩
  · rw [htrace, htrace']
    simp only [List.append_assoc]
  · rw [invocations_append, hbefore, hbefore']
  · rw [invocations_append, hafter, hafter']
    rfl
  · rw [h.outcome, h'.outcome]
    rfl

theorem after {f : α → Eval γ} {a : α} {finish : Outcome β → Outcome γ} (hx : x m = (.done a, m'))
    (hcalled : invocations (x.trace m) = called)
    (h : (f a).Embeds m' called' y m₁ finish) :
    (x >>= f).Embeds m (called ++ called') y m₁ finish := by
  obtain ⟨before, after, htrace, hbefore, hafter⟩ := h.trace
  refine ⟨⟨x.trace m ++ before, after, ?_, ?_, hafter⟩, ?_, ?_⟩
  · rw [trace_bind, hx]
    simp only [htrace, List.append_assoc]
  · rw [invocations_append, hcalled, hbefore]
  · rw [run_bind_of_done hx]
    exact h.outcome
  · rw [run_bind_of_done hx]
    exact h.spent

theorem bind {f : α → Eval γ} {g : α → Outcome γ} (h : x.Embeds m called y m₁ finish)
    (hf : ∀ a m', x m = (.done a, m') → invocations ((f a).trace m') = [] ∧ ((f a) m').1 = g a) :
    (x >>= f).Embeds m called y m₁ fun o => (finish o).andThen g := by
  obtain ⟨before, after, htrace, hbefore, hafter⟩ := h.trace
  have houtcome := h.outcome
  have hspent := @h.spent
  rcases hx : x m with ⟨a | s | e | _, m'⟩
  · obtain ⟨hquiet, hg⟩ := hf a m' hx
    rw [hx] at houtcome hspent
    refine ⟨⟨before, after ++ (f a).trace m', ?_, hbefore, ?_⟩, ?_, fun h => ?_⟩
    · rw [trace_bind, htrace, hx]
      simp only [List.append_assoc]
    · rw [invocations_append, hafter, hquiet]
      rfl
    · rw [run_bind_of_done hx, hg, ← houtcome]
      rfl
    · rw [run_bind_of_done hx]
      exact (f a).run_spent (hspent h)
  all_goals
    rw [hx] at houtcome hspent
    refine ⟨⟨before, after, ?_, hbefore, hafter⟩, ?_, fun h => ?_⟩
    · rw [trace_bind, htrace, hx]
      simp only [List.append_nil]
    · rw [run_bind, hx, ← houtcome]
      rfl
    · rw [run_bind, hx]
      exact hspent h

theorem catchSignal (h : x.Embeds m called y m₁ finish) :
    x.catchSignal.Embeds m called y m₁ fun o => (finish o).seeSignal := by
  refine ⟨x.trace_catchSignal m ▸ h.trace, ?_, ?_⟩
  · rw [x.run_catchSignal, h.outcome]
  · rw [x.run_catchSignal]
    exact h.spent

theorem catchFault (h : x.Embeds m called y m₁ finish) :
    x.catchFault.Embeds m called y m₁ fun o => (finish o).seeFault := by
  refine ⟨x.trace_catchFault m ▸ h.trace, ?_, ?_⟩
  · rw [x.run_catchFault, h.outcome]
  · rw [x.run_catchFault]
    exact h.spent

theorem withFrame {feed : FeedId} {label : Option String} {body : Frame → Eval α}
    (room : m.depth < m.config.maxDepth)
    (h : (body { id := m.nextFrame, feed }).Embeds (m.enter label) called y m₁ finish) :
    (withFrame feed label body).Embeds m called y m₁ fun o => (finish o).leave label := by
  obtain ⟨before, after, htrace, hbefore, hafter⟩ := h.trace
  refine ⟨⟨.entered label m :: before,
    after ++ [.left m.nextFrame (body { id := m.nextFrame, feed } (m.enter label)).2], ?_, ?_, ?_⟩,
    ?_, ?_⟩
  · rw [withFrame_entered feed label body room, htrace]
    simp only [List.cons_append, List.append_assoc]
  · exact hbefore
  · rw [invocations_append, hafter]
    rfl
  · unfold Homoicon.withFrame
    rw [run_inFrame (Nat.not_le.2 room), h.outcome]
  · intro id unit hspent
    unfold Homoicon.withFrame
    rw [run_inFrame (Nat.not_le.2 room)]
    exact (h.spent hspent).of_feeds rfl

end Embeds

end Eval

/-! ### Calls -/

namespace Evaluator

variable {ev : Evaluator} {feed : FeedId} {p : PendingCall} {c : CallState} {m m₁ : Machine}
  {unit : Value}

def invoked (m : Machine) (p : PendingCall) : Machine :=
  (m.enter (some p.label)).note (.invoked p.label m.nextFrame p.left.isSome)

/-- A call that was caught: its value, or its fault near the unit that was consumed last. -/
def located (unit : Value) : Except Fault (Option Value) → Outcome (Option Value)
  | .ok v? => .done v?
  | .error e => .failed (e.nearUnit unit.mold)

/-- A call that has consumed the feed when its slots are filled holds the run of its action. -/
theorem invoke_embeds (room : m.depth < m.config.maxDepth)
    (hfulfil : ev.fulfil { id := m.nextFrame, feed } p.left (CallState.start p) (invoked m p) =
      (.done c, m₁))
    (hquiet : invocations ((ev.fulfil { id := m.nextFrame, feed } p.left
      (CallState.start p)).trace (invoked m p)) = [])
    (hspent : m₁.Spent feed unit) :
    (ev.invoke feed p).Embeds m [p.label] (ev.runFilled { id := m.nextFrame, feed }
      (p.action.adaptations + 1 + ev.patience) c) m₁ (Outcome.blamed (m₁.feed feed) p.label) := by
  have hnote : Eval.note (.invoked p.label m.nextFrame p.left.isSome) (m.enter (some p.label)) =
      (.done (), invoked m p) := rfl
  have hcall : (ev.runCall { id := m.nextFrame, feed } p).Embeds (m.enter (some p.label)) [p.label]
      (ev.runFilled { id := m.nextFrame, feed } (p.action.adaptations + 1 + ev.patience) c) m₁ id :=
    Eval.Embeds.after hnote rfl (Eval.Embeds.after hfulfil hquiet (.refl _ _))
  have hframe : (withFrame feed (some p.label) fun frame => ev.runCall frame p).Embeds m _ _ _ _ :=
    Eval.Embeds.withFrame room hcall
  have hend : ((withFrame feed (some p.label) fun frame => ev.runCall frame p) m).2.Spent feed unit :=
    hframe.spent (Eval.run_spent _ hspent)
  refine (hframe.catchFault.bind (g := located unit) fun r m' hr => ?_).congr ?_
  · have hlookback : (m'.feed feed).lookback = some unit := by
      rw [Eval.run_catchFault] at hr
      obtain ⟨-, rfl⟩ := Prod.mk.inj hr
      exact hend.lookback
    have hask : Eval.command (.lookback feed) m' = (.done (some unit), m') := by
      rw [← hlookback]
      rfl
    cases r with
    | ok v? => exact ⟨rfl, rfl⟩
    | error e =>
      simp only [Eval.bind_assoc]
      constructor
      · rw [invocations_bind hask]
        rfl
      · rw [Eval.run_bind_of_done hask]
        rfl
  · cases (ev.runFilled { id := m.nextFrame, feed } (p.action.adaptations + 1 + ev.patience) c m₁).1
      with
    | failed e => simp only [Outcome.blamed, Feed.blame, hspent.lookback]; rfl
    | _ => rfl

end Evaluator

/-! ### Steps -/

namespace Stage

variable {S : Stage} {depth depth' : Nat} {f g h : Feed} {α β γ : Type}

def counting (S : Stage) (name : String) : Stage := { S with counted := name }

theorem Shows.counting {m : Machine} (h : S.Shows depth f m) (name : String) :
    (S.counting name).Shows depth f m :=
  ⟨h.depth_eq, h.depth_le, h.maxDepth, h.interrupt, h.hook, h.feed_lt, h.feed_eq, h.scope_eq,
    h.scope_lt, h.parent_lt, h.lookup_eq⟩

theorem Shows.of_counting {m : Machine} {name : String} (h : (S.counting name).Shows depth f m) :
    S.Shows depth f m :=
  ⟨h.depth_eq, h.depth_le, h.maxDepth, h.interrupt, h.hook, h.feed_lt, h.feed_eq, h.scope_eq,
    h.scope_lt, h.parent_lt, h.lookup_eq⟩

theorem Shows.spent {m : Machine} {unit : Value} (h : S.Shows depth f m) (hunits : f.units = [])
    (hlookback : f.lookback = some unit) : m.Spent S.feed unit :=
  ⟨h.feed_lt, h.feed_eq ▸ hunits, h.feed_eq ▸ hlookback⟩

theorem Finds.run {x : Eval α} {P : α → Prop} {m : Machine}
    (hx : ∀ name, (S.counting name).Finds depth f x P g) (hm : S.Shows depth f m) :
    ∃ a m', x m = (.done a, m') ∧ P a ∧ S.Shows depth g m' ∧ invocations (x.trace m) = [] := by
  have hruns := fun name => (hx name m (hm.counting name)).1
  obtain ⟨g', hg, a, ho, hP, rfl, -⟩ := hruns S.counted
  refine ⟨a, (x m).2, Prod.ext ho rfl, hP, hg.of_counting, invocations_eq_nil fun name => ?_⟩
  obtain ⟨_, -, _, -, -, -, hcount⟩ := hruns name
  exact hcount

/-- From every machine that shows `f` the run of `x` holds one of `y` from a machine that shows
`g`, and there is no call before. -/
def Embeds (S : Stage) (depth : Nat) (f : Feed) (x : Eval α) (depth' : Nat) (g : Feed) (y : Eval β)
    (finish : Outcome β → Outcome α) : Prop :=
  ∀ m, S.Shows depth f m → ∃ m₁, S.Shows depth' g m₁ ∧ x.Embeds m [] y m₁ finish

theorem Embeds.after {x : Eval α} {k : α → Eval γ} {P : α → Prop} {y : Eval β}
    {finish : Outcome β → Outcome γ} (hx : ∀ name, (S.counting name).Finds depth f x P h)
    (hk : ∀ a, P a → S.Embeds depth h (k a) depth' g y finish) :
    S.Embeds depth f (x >>= k) depth' g y finish := by
  intro m hm
  obtain ⟨a, m', hrun, hP, hm', hquiet⟩ := Finds.run hx hm
  obtain ⟨m₁, hm₁, hembeds⟩ := hk a hP m' hm'
  exact ⟨m₁, hm₁, hembeds.after hrun hquiet⟩

theorem Embeds.givenThat {x : Eval α} {k : α → Eval γ} {a : α} {y : Eval β}
    {finish : Outcome β → Outcome γ} (hx : ∀ name, (S.counting name).Gives depth f x a h)
    (hk : S.Embeds depth h (k a) depth' g y finish) : S.Embeds depth f (x >>= k) depth' g y finish :=
  Embeds.after hx fun _ ha => ha ▸ hk

/-- An evaluation that comes to a result has then consumed the feed, `unit` at last. -/
def Drains (S : Stage) (depth : Nat) (f : Feed) (x : Eval α) (unit : Value) : Prop :=
  ∀ m a m', S.Shows depth f m → x m = (.done a, m') → m'.Spent S.feed unit

end Stage

/-- What a step makes of the outcome of the call that it ends with. -/
def Outcome.ofCall (frame : Frame) : Outcome (Option Value) → Outcome Stepped
  | .done v? => .done { frame := { frame with out := v?.elim frame.out.markStale frame.out.set } }
  | .thrown s => .done { frame, signal := some s }
  | .failed e => .failed e
  | .exhausted => .exhausted

theorem Evaluator.postSwitch_spent {frame : Frame} {m : Machine} {unit : Value}
    (h : m.Spent frame.feed unit) : postSwitch frame m = (.done (frame, .finished), m) ∧
      invocations ((postSwitch frame).trace m) = [] := by
  have hpeek : Eval.peek frame.feed m = (.done none, m) := by
    show (Outcome.done (m.feed frame.feed).peek, m) = _
    rw [Feed.peek, h.units]
    rfl
  unfold postSwitch
  constructor
  · rw [Eval.run_bind_of_done hpeek]
    rfl
  · rw [Eval.trace_bind, hpeek]
    rfl

theorem Evaluator.drive_spent {ev : Evaluator} {frame : Frame} {m : Machine} {unit : Value}
    (h : m.Spent frame.feed unit) (fuel : Nat) :
    invocations ((ev.drive (fuel + 2) frame .postSwitch).trace m) = [] ∧
      (ev.drive (fuel + 2) frame .postSwitch m).1 = .done { frame } := by
  obtain ⟨journal, hnote⟩ := noteState_run frame StepState.postSwitch.name m
  let m₁ : Machine := { m with journal }
  obtain ⟨hrun, hquiet⟩ := postSwitch_spent (m := m₁) (h.of_feeds rfl)
  have hcaught : (ev.transition frame .postSwitch).catchSignal m₁ =
      (.done (.ok (frame, .finished)), m₁) := by
    rw [Eval.run_catchSignal]
    show (Outcome.seeSignal (postSwitch frame m₁).1, (postSwitch frame m₁).2) = _
    rw [hrun]
    rfl
  obtain ⟨journal', hnote'⟩ := noteState_run frame StepState.finished.name m₁
  have hover : ev.driveOn (fuel + 1) frame (.ok (frame, .finished)) m₁ =
      (.done { frame }, { m₁ with journal := journal' }) := by
    show ev.drive (fuel + 1) frame .finished m₁ = _
    rw [drive_finished, Eval.run_bind_of_done hnote']
    rfl
  rw [drive_of_ne (by simp)]
  constructor
  · rw [invocations_bind hnote, invocations_bind hcaught, Eval.trace_catchSignal]
    show [] ++ (invocations ((postSwitch frame).trace m₁) ++
      invocations ((noteState frame StepState.finished.name >>=
        fun _ => (pure { frame } : Eval Stepped)).trace m₁)) = []
    rw [hquiet, invocations_bind hnote']
    rfl
  · rw [Eval.run_bind_of_done hnote, Eval.run_bind_of_done hcaught, hover]

namespace Stage

variable {S : Stage} {depth depth' : Nat} {f g h : Feed} {ev : Evaluator} {frame frame' : Frame}
  {β : Type} {y : Eval β} {unit last : Value} {rest : List Value}

namespace Embeds

theorem drive {fuel : Nat} {state state' : StepState} {finish : Outcome β → Outcome Stepped}
    (hstate : state ≠ .finished)
    (ht : ∀ name, (S.counting name).Gives depth f (ev.transition frame state) (frame', state') h)
    (hrest : S.Embeds depth h (ev.drive fuel frame' state') depth' g y finish) :
    S.Embeds depth f (ev.drive (fuel + 1) frame state) depth' g y finish := by
  have hcaught : ∀ name, (S.counting name).Gives depth f (ev.transition frame state).catchSignal
      (.ok (frame', state')) h := by
    intro name
    apply (ht name).catchSignal
    rintro o g' n ⟨_, rfl, rfl, rfl, rfl⟩
    exact ⟨_, rfl, rfl, rfl, rfl⟩
  rw [Evaluator.drive_of_ne hstate]
  exact givenThat (fun _ => Gives.noteState frame state.name) (givenThat hcaught hrest)

theorem opening {fuel : Nat} {finish : Outcome β → Outcome Stepped}
    (hframe : frame.feed = S.feed) (hunits : f.units = unit :: rest) (hunit : unit ≠ .comma)
    (hclaim : S.Unclaiming f.peekNext)
    (hrest : S.Embeds depth f (ev.drive fuel frame (.dispatch unit)) depth' g y finish) :
    S.Embeds depth f (ev.drive (fuel + 2) frame .start) depth' g y finish := by
  have hstart : ∀ name, (S.counting name).Gives depth f (ev.transition frame .start)
      (frame, .lookbackQuote unit) f := by
    intro name
    have hstarts : (S.counting name).Gives depth f (Evaluator.startStep frame)
      (.lookbackQuote unit) f := Gives.startStep hframe hunits hunit
    exact hstarts.andThen (Gives.pure _)
  have hquote : ∀ name, (S.counting name).Gives depth f (ev.transition frame (.lookbackQuote unit))
      (frame, .dispatch unit) f := by
    intro name
    have hclaim' : (S.counting name).Unclaiming f.peekNext := ⟨hclaim.known, hclaim.evaluates⟩
    simp only [Evaluator.transition, hframe]
    exact (Gives.lookbackQuote unit hclaim').andThen (Gives.pure _)
  exact drive (by simp) hstart (drive (by simp) hquote hrest)

theorem evalStep {finish : Outcome β → Outcome Stepped}
    (hframe : frame.feed = S.feed) (hunits : f.units = unit :: rest) (hunit : unit ≠ .comma)
    (hclaim : S.Unclaiming f.peekNext)
    (hrest : S.Embeds depth { f with noLookahead := false }
      (ev.drive (2 * rest.length + 4)
        { frame with out := frame.out.markStale, noLookahead := f.noLookahead } (.dispatch unit))
      depth' g y finish) :
    S.Embeds depth f (ev.evalStep frame) depth' g y finish := by
  have hfuel : 2 * f.units.length + 4 = 2 * rest.length + 4 + 2 := by
    rw [hunits, List.length_cons]
    omega
  unfold Evaluator.evalStep
  rw [hframe]
  refine givenThat (fun _ => Gives.takeNoLookahead) (givenThat (fun _ => Gives.poll)
    (givenThat (fun _ => Gives.unitsLeft) ?_))
  simp only [hfuel]
  exact opening rfl hunits hunit hclaim (hframe ▸ hrest)

theorem processAction {p : PendingCall} (fuel : Nat) (hframe : frame.feed = S.feed)
    (hdrains : S.Drains depth f (ev.invoke S.feed p) last) :
    S.Embeds depth f (ev.drive (fuel + 3) frame (.processAction p)) depth f (ev.invoke S.feed p)
      (Outcome.ofCall frame) := by
  rw [Evaluator.drive_of_ne (by simp)]
  refine givenThat (fun _ => Gives.noteState frame _) fun m hm => ⟨m, hm, ?_⟩
  let next (v? : Option Value) : Frame × StepState :=
    ({ frame with out := v?.elim frame.out.markStale frame.out.set }, .postSwitch)
  have htransition : ev.transition frame (.processAction p) =
      ev.invoke S.feed p >>= fun v? => pure (next v?) := by
    have hinvoke : ev.invoke frame.feed p = ev.invoke S.feed p := by rw [hframe]
    show ev.invoke frame.feed p >>= _ = _
    rw [hinvoke]
    refine congrArg _ (funext fun v? => ?_)
    cases v? <;> rfl
  rw [htransition]
  have hcall := (Eval.Embeds.refl (ev.invoke S.feed p) m).bind (f := fun v? => pure (next v?))
    (g := fun v? => .done (next v?)) fun _ _ _ => ⟨rfl, rfl⟩
  refine (hcall.catchSignal.bind (f := ev.driveOn (fuel + 2) frame)
    (g := fun | .ok r => .done { frame := r.1 } | .error s => .done { frame, signal := some s })
    fun r m' hr => ?_).congr ?_
  · rcases Eval.catchSignal_eq_done hr with ⟨a, rfl, ha⟩ | ⟨s, rfl, -⟩
    · obtain ⟨v?, _, hinvoke, ha⟩ := Eval.run_bind_eq_done.1 ha
      cases ha
      have hend : m'.Spent (next v?).1.feed last := by
        show m'.Spent frame.feed last
        rw [hframe]
        exact hdrains m v? m' hm hinvoke
      exact Evaluator.drive_spent hend fuel
    · obtain ⟨journal, hnote⟩ := Evaluator.noteState_run frame "thrown" m'
      constructor
      · show invocations ((Evaluator.noteState frame "thrown" >>= fun _ => pure _).trace m') = []
        rw [invocations_bind hnote]
        rfl
      · show ((Evaluator.noteState frame "thrown" >>= fun _ => pure _) m').1 = _
        rw [Eval.run_bind_of_done hnote]
        rfl
  · cases (ev.invoke S.feed p m).1 <;> rfl

end Embeds

end Stage

/-! ### Whole feeds -/

namespace Evaluator

variable {ev : Evaluator} {frame frame₁ : Frame} {m m₁ : Machine} {y : Eval (Option Value)}
  {unit last : Value} {rest : List Value} {called : List String}

theorem stepToEnd_ended (ev : Evaluator) (h : (m.feed frame.feed).units = []) (fuel : Nat) :
    ev.stepToEnd fuel frame m = (.done frame, m) ∧
      invocations ((ev.stepToEnd fuel frame).trace m) = [] := by
  have hend := atEnd_of_nil h
  cases fuel <;>
    · unfold stepToEnd
      constructor
      · rw [Eval.run_bind_of_done hend]
        rfl
      · rw [invocations_bind hend]
        rfl

/-- What a run comes to that ends with a step: the value it has produced last, or its signal. -/
def lastOutcome (stepped : Stepped) : Outcome (Option Value) :=
  match stepped.signal with
  | some s => .thrown s
  | none => .done stepped.frame.out.last

theorem stepToEnd_embeds (h : (ev.step frame).Embeds m called y m₁ (Outcome.ofCall frame₁))
    (hunits : (m.feed frame.feed).units = unit :: rest) (hsame : frame₁.feed = frame.feed)
    (hlast : frame₁.out.last = none)
    (hdrains : ∀ v? m', y m₁ = (.done v?, m') → m'.Spent frame.feed last) (fuel : Nat) :
    (ev.stepToEnd (fuel + 1) frame >>= fun frame => pure frame.out.last).Embeds m called y m₁ id := by
  let rest (stepped : Stepped) : Eval (Option Value) :=
    stepped.frameOrThrow >>= fun frame => ev.stepToEnd fuel frame >>= fun frame =>
      pure frame.out.last
  have hstep : (ev.step frame >>= rest).Embeds m called y m₁ fun o =>
      (Outcome.ofCall frame₁ o).andThen lastOutcome := by
    refine h.bind fun stepped m' hrun => ?_
    have houtcome := h.outcome
    rw [hrun] at houtcome
    rcases hy : y m₁ with ⟨v? | s | e | _, m₂⟩ <;> rw [hy] at houtcome <;> cases houtcome
    -- the feed is at its end, so that no second step is made
    · have hend : m'.Spent frame.feed last := by
        have hspent := hdrains v? m₂ hy
        have := h.spent (hy ▸ hspent : (y m₁).2.Spent frame.feed last)
        rwa [hrun] at this
      let frame₂ : Frame := { frame₁ with out := v?.elim frame₁.out.markStale frame₁.out.set }
      have hunits : (m'.feed frame₂.feed).units = [] := by
        show (m'.feed frame₁.feed).units = []
        rw [hsame]
        exact hend.units
      obtain ⟨hdone, hquiet⟩ := ev.stepToEnd_ended hunits fuel
      constructor
      · show invocations ((ev.stepToEnd fuel frame₂ >>= fun frame =>
          (pure frame.out.last : Eval (Option Value))).trace m') = []
        rw [invocations_bind hdone, hquiet]
        rfl
      · show ((ev.stepToEnd fuel frame₂ >>= fun frame =>
          (pure frame.out.last : Eval (Option Value))) m').1 = _
        rw [Eval.run_bind_of_done hdone]
        rfl
    · exact ⟨rfl, rfl⟩
  have hcode : (ev.stepToEnd (fuel + 1) frame >>= fun frame => pure frame.out.last) =
      Eval.atEnd frame.feed >>= fun ended =>
        if ended then pure frame.out.last else ev.step frame >>= rest := by
    unfold stepToEnd
    rw [Eval.bind_assoc]
    refine congrArg _ (funext fun ended => ?_)
    cases ended
    · simp only [Bool.false_eq_true, if_false, Eval.bind_assoc]
      rfl
    · rfl
  rw [hcode]
  refine (Eval.Embeds.after (atEnd_of_cons hunits) (Eq.refl []) hstep).congr ?_
  rcases (y m₁).1 with v? | s | e | _
  · cases v? with
    | none => exact congrArg Outcome.done hlast
    | some v => rfl
  all_goals rfl

end Evaluator

namespace Stage

def forCode (m : Machine) (scope : ScopeId) : Stage where
  feed := m.feeds.size
  scope := scope
  known _ := True
  names := m.lookup scope
  maxDepth := m.config.maxDepth
  limit := m.config.maxDepth
  counted := ""

variable {m : Machine} {scope : ScopeId} {depth : Nat} {ev : Evaluator} {f : Feed}
  {y : Eval (Option Value)} {unit last : Value} {rest : List Value}

theorem forCode_shows (ready : m.Ready) (hscope : scope < m.scopes.next) (units : List Value) :
    (forCode m scope).Shows m.depth { units, scope }
      { m with feeds := m.feeds.push { units, scope } } where
  depth_eq := rfl
  depth_le := Nat.le_of_lt ready.room
  maxDepth := rfl
  interrupt := ready.interrupt
  hook := ready.hook
  feed_lt := by
    rw [Array.size_push]
    exact Nat.lt_succ_self _
  feed_eq := by
    show (Machine.feed _ m.feeds.size) = _
    rw [Machine.feed_eq, Array.getElem?_push_size]
    rfl
  scope_eq := rfl
  scope_lt := hscope
  parent_lt := ready.parent_lt
  lookup_eq _ _ := rfl

/-- Code whose first step comes to a call that leaves no units is run by that call. -/
theorem Embeds.runUnits (ready : m.Ready) (hscope : scope < m.scopes.next)
    (hstep : ∀ id, ∃ frame : Frame, frame.feed = m.feeds.size ∧ frame.out.last = none ∧
      (forCode m scope).Embeds (m.depth + 1) { units := unit :: rest, scope }
        (ev.step { id, feed := m.feeds.size }) depth f y (Outcome.ofCall frame))
    (hdrains : (forCode m scope).Drains depth f y last) :
    ∃ m₁, (forCode m scope).Shows depth f m₁ ∧
      (ev.runUnits (unit :: rest) scope).Embeds m [] y m₁ id := by
  let fed : Machine := { m with feeds := m.feeds.push { units := unit :: rest, scope } }
  have hentered := (forCode_shows ready hscope (unit :: rest)).enter ready.room none
  obtain ⟨frame, hfeed, hlast, hembeds⟩ := hstep m.nextFrame
  obtain ⟨m₁, hm₁, hrun⟩ := hembeds _ hentered
  refine ⟨m₁, hm₁, ?_⟩
  have hunits : ((fed.enter none).feed m.feeds.size).units = unit :: rest :=
    congrArg Feed.units hentered.feed_eq
  have hleft : Eval.unitsLeft m.feeds.size (fed.enter none) =
      (.done (rest.length + 1), fed.enter none) := by
    show (Outcome.done ((fed.enter none).feed m.feeds.size).units.length, _) = _
    rw [hunits, List.length_cons]
  have hbody : (Eval.unitsLeft m.feeds.size >>= fun units =>
      ev.stepToEnd units { id := m.nextFrame, feed := m.feeds.size } >>= fun frame =>
        pure frame.out.last).Embeds (fed.enter none) [] y m₁ id :=
    Eval.Embeds.after hleft (Eq.refl []) (Evaluator.stepToEnd_embeds hrun hunits hfeed hlast
      (fun v? m' hy => hdrains m₁ v? m' hm₁ hy) rest.length)
  have hframe : (ev.runFeed m.feeds.size).Embeds fed [] y m₁ fun o => o.leave none :=
    Eval.Embeds.withFrame ready.room hbody
  have hnew : Eval.newFeed (unit :: rest) scope m = (.done m.feeds.size, fed) := rfl
  refine (Eval.Embeds.after hnew (Eq.refl []) hframe).congr ?_
  cases (y m₁).1 <;> rfl

end Stage

end Homoicon
