import Homoicon.Proofs.Frames
import Homoicon.Proofs.Results

/-!
# Progress

Feeds only ever get shorter, whatever runs, and every step on a feed that is not at its end consumes
at least one unit.  The states of a step go by in an order that cannot turn back: `StepState.need`
bounds how many are still to come.
-/

namespace Homoicon

namespace Machine

def units (m : Machine) (id : FeedId) : Nat := (m.feed id).units.length

theorem feed_eq (m : Machine) (id : FeedId) : m.feed id = (m.feeds[id]?).getD default := by
  rw [feed, Array.getD_eq_getD_getElem?]

theorem lt_size_of_units {m : Machine} {id : FeedId} (h : 0 < m.units id) : id < m.feeds.size := by
  refine Nat.lt_of_not_le fun hle => ?_
  rw [units, feed_eq, Array.getElem?_eq_none hle] at h
  exact Nat.lt_irrefl 0 h

theorem feed_updateFeed (m : Machine) (id j : FeedId) (f : Feed → Feed) :
    (m.updateFeed id f).feed j = if id = j ∧ j < m.feeds.size then f (m.feed j) else m.feed j := by
  rw [feed_eq, feed_eq, updateFeed, Array.getElem?_modify]
  by_cases hj : j < m.feeds.size
  · by_cases hid : id = j <;> simp [hid, hj]
  · simp [hj]

theorem units_updateFeed (m : Machine) (id j : FeedId) {f : Feed → Feed}
    (hf : ∀ feed, (f feed).units = feed.units) : (m.updateFeed id f).units j = m.units j := by
  rw [units, units, feed_updateFeed]
  split
  · rw [hf]
  · rfl

/-- Of every feed of the first machine a rear part is left in the second. -/
structure FeedsShrink (m m' : Machine) : Prop where
  size_le : m.feeds.size ≤ m'.feeds.size
  suffix : ∀ id < m.feeds.size, (m'.feed id).units <:+ (m.feed id).units

namespace FeedsShrink

theorem units_le {m m' : Machine} (h : FeedsShrink m m') (id : FeedId) (hid : id < m.feeds.size) :
    m'.units id ≤ m.units id :=
  (h.suffix id hid).length_le

theorem refl (m : Machine) : FeedsShrink m m := ⟨Nat.le_refl _, fun _ _ => List.suffix_refl _⟩

theorem of_feeds {m m' : Machine} (h : m'.feeds = m.feeds) : FeedsShrink m m' := by
  have hunits : ∀ id, (m'.feed id).units = (m.feed id).units := fun id => by rw [feed, feed, h]
  exact ⟨Nat.le_of_eq (congrArg Array.size h.symm), fun id _ => hunits id ▸ List.suffix_refl _⟩

theorem trans {m m' m'' : Machine} (h : FeedsShrink m m') (h' : FeedsShrink m' m'') :
    FeedsShrink m m'' :=
  ⟨Nat.le_trans h.size_le h'.size_le, fun id hid =>
    (h'.suffix id (Nat.lt_of_lt_of_le hid h.size_le)).trans (h.suffix id hid)⟩

theorem updateFeed (m : Machine) (id : FeedId) {f : Feed → Feed}
    (hf : ∀ feed, (f feed).units <:+ feed.units) : FeedsShrink m (m.updateFeed id f) := by
  refine ⟨by simp [Machine.updateFeed], fun j _ => ?_⟩
  rw [feed_updateFeed]
  split
  · exact hf _
  · exact List.suffix_refl _

end FeedsShrink

end Machine

theorem Feed.scope_advance (f : Feed) : f.advance.scope = f.scope := by
  unfold Feed.advance
  split <;> rfl

theorem Feed.units_advance_suffix (f : Feed) : f.advance.units <:+ f.units := by
  unfold Feed.advance
  split
  · exact List.suffix_refl _
  · rename_i hunits
    rw [hunits]
    exact List.suffix_cons _ _

/-- A command leaves the feeds alone, adds one, or moves one on or changes its marks. -/
theorem Command.run_feeds_cases {β : Type} (c : Command β) (m : Machine) :
    (c.run m).2.feeds = m.feeds ∨ (∃ feed, (c.run m).2.feeds = m.feeds.push feed) ∨
      ∃ id f, (c.run m).2 = m.updateFeed id f ∧ (f = Feed.advance ∨
        ∀ feed, (f feed).units = feed.units ∧ (f feed).lookback = feed.lookback) := by
  cases c with
  | newFeed units scope => exact .inr (.inl ⟨_, rfl⟩)
  | advance id => exact .inr (.inr ⟨id, _, rfl, .inl rfl⟩)
  | setNoLookahead id b => exact .inr (.inr ⟨id, _, rfl, .inr fun _ => ⟨rfl, rfl⟩⟩)
  | setDeferring id b => exact .inr (.inr ⟨id, _, rfl, .inr fun _ => ⟨rfl, rfl⟩⟩)
  | assign scope name v =>
    left
    obtain ⟨_, h⟩ := m.assign_eq scope name v
    rw [Command.run, h]
  | poll =>
    obtain ⟨_, _, _, _, h⟩ := m.poll_eq
    rw [Command.run, h]
    exact .inl rfl
  | note e =>
    obtain ⟨_, h⟩ := m.note_eq e
    rw [Command.run, h]
    exact .inl rfl
  | noteState id state =>
    left
    simp only [Command.run]
    split
    · obtain ⟨_, h⟩ := m.note_eq (.stepState m.tick id state)
      rw [h]
    · rfl
  | _ => exact .inl rfl

open Machine in
theorem Command.run_feeds {β : Type} (c : Command β) (m : Machine) : FeedsShrink m (c.run m).2 := by
  rcases c.run_feeds_cases m with hfeeds | ⟨feed, hfeeds⟩ | ⟨id, f, hrun, hf⟩
  · exact .of_feeds hfeeds
  · refine ⟨by simp [hfeeds], fun id hid => ?_⟩
    have hsame : (c.run m).2.feed id = m.feed id := by
      rw [feed_eq, feed_eq, hfeeds, Array.getElem?_push_lt hid, Array.getElem?_eq_getElem hid]
    exact hsame ▸ List.suffix_refl _
  · rw [hrun]
    refine .updateFeed m id fun feed => ?_
    rcases hf with rfl | hf
    · exact feed.units_advance_suffix
    · exact (hf feed).1 ▸ List.suffix_refl _

theorem Moment.feeds : ∀ k : Moment, Machine.FeedsShrink k.before k.after
  | .asked c m => c.run_feeds m
  | .entered _ _ | .left _ _ => .of_feeds rfl
  | .refused m | .raised _ m | .faulted _ m | .gaveUp m => .refl m

theorem Eval.trace_feeds {α : Type} (x : Eval α) (m : Machine) :
    (∀ k ∈ x.trace m, Machine.FeedsShrink m k.before) ∧ Machine.FeedsShrink m (x m).2 := by
  have h := (x.trace_connected m).invariant (P := fun n => Machine.FeedsShrink m n)
    (fun k _ hk => hk.trans k.feeds) (.refl m)
  exact ⟨fun k hk => (h.1 k hk).1, h.2⟩

theorem Eval.run_feeds {α : Type} (x : Eval α) (m : Machine) : Machine.FeedsShrink m (x m).2 :=
  (x.trace_feeds m).2

theorem Machine.FeedsShrink.of_run {α : Type} {x : Eval α} {m m' : Machine} {o : Outcome α}
    (h : x m = (o, m')) : FeedsShrink m m' := by
  have hx := x.run_feeds m
  rw [h] at hx
  exact hx

theorem Machine.units_advance (m : Machine) (id : FeedId) :
    (m.updateFeed id Feed.advance).units id = m.units id - 1 := by
  rw [units, feed_updateFeed]
  split
  · exact Feed.length_units_advance _
  · rename_i hid
    have hzero : m.units id = 0 :=
      Nat.eq_zero_of_not_pos fun hpos => hid ⟨rfl, lt_size_of_units hpos⟩
    rw [hzero]
    exact hzero

theorem Machine.units_eq_zero_iff {m : Machine} {id : FeedId} :
    m.units id = 0 ↔ (m.feed id).peek = none := by
  rw [units, Feed.peek, List.length_eq_zero_iff, List.head?_eq_none_iff]

/-! ### The states of a step -/

def StepState.Fed (m : Machine) (feed : FeedId) : StepState → Prop
  | .start | .finished => True
  | .lookbackQuote _ | .dispatch _ => 0 < m.units feed
  | .processAction _ | .postSwitch => feed < m.feeds.size

/-- How many states are still to come, this one included, while the feed has `units` units. -/
def StepState.need (units : Nat) : StepState → Nat
  | .start => 2 * units + 4
  | .lookbackQuote _ => 2 * units + 3
  | .dispatch _ => 2 * units + 2
  | .processAction _ => 2 * units + 3
  | .postSwitch => 2 * units + 2
  | .finished => 1

/-- How many units a step that is in this state leaves at most. -/
def StepState.leaves (units : Nat) : StepState → Nat
  | .start | .lookbackQuote _ | .dispatch _ => units - 1
  | .processAction _ | .postSwitch | .finished => units

/-- The state `s'` on `m'` may follow the state `s` on `m`. -/
structure StepState.Follows (feed : FeedId) (m : Machine) (s : StepState) (m' : Machine)
    (s' : StepState) : Prop where
  fed : s'.Fed m' feed
  need_lt : s'.need (m'.units feed) < s.need (m.units feed)
  leaves_le : s'.leaves (m'.units feed) ≤ s.leaves (m.units feed)

def StepState.IsLate : StepState → Prop
  | .processAction _ | .postSwitch | .finished => True
  | _ => False

theorem StepState.IsLate.bounds {s : StepState} (h : s.IsLate) (units : Nat) :
    s.need units ≤ 2 * units + 3 ∧ s.leaves units = units := by
  cases s with
  | processAction p => exact ⟨Nat.le_refl _, rfl⟩
  | postSwitch => exact ⟨Nat.le_succ _, rfl⟩
  | finished => exact ⟨by simp only [need]; omega, rfl⟩
  | _ => cases h

theorem StepState.IsLate.fed {s : StepState} (h : s.IsLate) {m : Machine} {feed : FeedId}
    (hfeed : feed < m.feeds.size) : s.Fed m feed := by
  cases s with
  | processAction p => exact hfeed
  | postSwitch => exact hfeed
  | finished => trivial
  | _ => cases h

theorem wordAction?_run (feed : FeedId) (unit? : Option Value) (m : Machine) :
    (wordAction? feed unit? m).2 = m := by
  unfold wordAction?
  split
  · simp only [Eval.run_bind, Eval.scopeOf, Eval.lookup, Eval.run_command, Command.run]
    split <;> rfl
  · rfl

theorem leftClaim?_run (feed : FeedId) (unit : Value) (m : Machine) :
    (leftClaim? feed unit m).2 = m := by
  have hword := wordAction?_run feed (m.feed feed).peekNext m
  simp only [leftClaim?, Eval.run_bind, Eval.run_command, Command.run]
  rcases h : wordAction? feed (m.feed feed).peekNext m with ⟨_ | _ | _ | _, m'⟩ <;> rw [h] at hword
  · dsimp only
    split <;> exact hword
  all_goals exact hword

namespace Evaluator

variable {ev : Evaluator} {frame frame' : Frame} {state' : StepState} {m m' : Machine}

theorem startStep_follows (h : startStep frame m = (.done state', m')) :
    StepState.Follows frame.feed m .start m' state' := by
  obtain ⟨unit?, m₁, h₁, h⟩ := Eval.run_bind_eq_done.1 h
  cases h₁
  split at h
  · rename_i hnone
    cases h
    have hz := Machine.units_eq_zero_iff.2 hnone
    refine ⟨trivial, ?_, ?_⟩
    · simp only [StepState.need]
      omega
    · rw [StepState.leaves, hz]
      exact Nat.zero_le _
  · obtain ⟨_, m₂, h₂, h⟩ := Eval.run_bind_eq_done.1 h
    cases h₂
    cases h
    refine ⟨trivial, ?_, Nat.le_of_eq (m.units_advance frame.feed)⟩
    simp only [StepState.need]
    omega
  · rename_i hsome
    cases h
    have hpos : m.units frame.feed ≠ 0 := fun hz => by
      rw [Machine.units_eq_zero_iff] at hz
      exact absurd (hz ▸ hsome) (by simp)
    exact ⟨Nat.pos_of_ne_zero hpos, Nat.lt_succ_self _, Nat.le_refl _⟩

/-- What runs after a unit was consumed cannot bring it back. -/
theorem consumed {feed : FeedId} (hpos : 0 < m.units feed)
    (h : Machine.FeedsShrink (m.updateFeed feed Feed.advance) m') :
    feed < m'.feeds.size ∧ m'.units feed < m.units feed := by
  have hfeed : feed < (m.updateFeed feed Feed.advance).feeds.size := by
    rw [Machine.updateFeed, Array.size_modify]
    exact Machine.lt_size_of_units hpos
  have hunits := h.units_le _ hfeed
  rw [m.units_advance] at hunits
  exact ⟨Nat.lt_of_lt_of_le hfeed h.size_le, by omega⟩

theorem follows_of_late {s : StepState} {feed : FeedId} (hlate : state'.IsLate)
    (hneed : 2 * m.units feed + 2 ≤ s.need (m.units feed))
    (hleaves : m.units feed - 1 ≤ s.leaves (m.units feed))
    (h : feed < m'.feeds.size ∧ m'.units feed < m.units feed) :
    StepState.Follows feed m s m' state' := by
  obtain ⟨hlate_need, hlate_leaves⟩ := hlate.bounds (m'.units feed)
  exact ⟨hlate.fed h.1, by omega, by omega⟩

theorem lookbackQuote_follows {unit : Value} (hpos : 0 < m.units frame.feed)
    (h : ev.lookbackQuote frame.feed unit m = (.done state', m')) :
    StepState.Follows frame.feed m (.lookbackQuote unit) m' state' := by
  obtain ⟨claim, m₁, h₁, h⟩ := Eval.run_bind_eq_done.1 h
  obtain rfl : m = m₁ := by
    have := leftClaim?_run frame.feed unit m
    rw [h₁] at this
    exact this.symm
  split at h
  · cases h
    exact ⟨hpos, Nat.lt_succ_self _, Nat.le_refl _⟩
  · obtain ⟨_, m₂, h₂, h⟩ := Eval.run_bind_eq_done.1 h
    cases h₂
    have hlate : state'.IsLate := by
      obtain ⟨_, _, -, h⟩ := Eval.run_bind_eq_done.1 h
      obtain ⟨_, _, -, h⟩ := Eval.run_bind_eq_done.1 h
      obtain ⟨_, _, -, h⟩ := Eval.run_bind_eq_done.1 h
      cases h
      trivial
    exact follows_of_late hlate (Nat.le_succ _) (Nat.le_refl _) (consumed hpos (.of_run h))

theorem produced_late (v : Option Value) :
    (produced frame v).1.feed = frame.feed ∧ (produced frame v).2.IsLate := by
  cases v <;> exact ⟨rfl, trivial⟩

theorem callByWord_late {a : Action} {name : String} :
    (callByWord frame a name).Returns StepState.IsLate := by
  unfold callByWord
  split
  · exact .pure trivial
  · refine .after fun _ => ?_
    split
    · exact .fail
    · split
      · exact .fail
      · exact .pure trivial

theorem dispatch_late {unit : Value} :
    (ev.dispatch frame unit).Returns fun r => r.1.feed = frame.feed ∧ r.2.IsLate := by
  refine .after fun _ => ?_
  split
  · exact .pure (produced_late _)
  · refine .after fun v => ?_
    split
    · exact .bind callByWord_late fun _ hs => .pure ⟨rfl, hs⟩
    · exact .pure (produced_late _)
  · exact .after fun _ => .pure (produced_late _)
  · exact .after fun _ => .after fun _ => .after fun _ => .pure (produced_late _)
  · exact .after fun _ => .pure (produced_late _)
  · exact .after fun _ => .after fun _ => .pure (produced_late _)
  · refine .after fun r => ?_
    cases r with
    | call p => exact .pure ⟨rfl, trivial⟩
    | value v => exact .pure (produced_late _)
  · exact .after fun _ => .pure (produced_late _)
  · exact .after fun _ => .after fun _ => .pure (produced_late _)
  · exact .pure ⟨rfl, trivial⟩
  · exact .pure ⟨rfl, trivial⟩
  · exact .pure (produced_late _)

theorem dispatch_follows {unit : Value} (hpos : 0 < m.units frame.feed)
    (h : ev.dispatch frame unit m = (.done (frame', state'), m')) :
    frame'.feed = frame.feed ∧ StepState.Follows frame.feed m (.dispatch unit) m' state' := by
  obtain ⟨hfeed, hlate⟩ := dispatch_late m _ m' h
  obtain ⟨_, m₁, h₁, h⟩ := Eval.run_bind_eq_done.1 h
  cases h₁
  exact ⟨hfeed, follows_of_late hlate (Nat.le_refl _) (Nat.le_refl _) (consumed hpos (.of_run h))⟩

theorem processAction_follows {p : PendingCall} (hfeed : frame.feed < m.feeds.size)
    (h : ev.processAction frame p m = (.done (frame', state'), m')) :
    frame'.feed = frame.feed ∧ StepState.Follows frame.feed m (.processAction p) m' state' := by
  have hshrink : Machine.FeedsShrink m m' := .of_run h
  obtain ⟨hsame, rfl⟩ : frame'.feed = frame.feed ∧ state' = .postSwitch := by
    obtain ⟨v?, m₁, h₁, h⟩ := Eval.run_bind_eq_done.1 h
    cases v? <;> cases h <;> exact ⟨rfl, rfl⟩
  have hunits := hshrink.units_le _ hfeed
  refine ⟨hsame, Nat.lt_of_lt_of_le hfeed hshrink.size_le, ?_, hunits⟩
  simp only [StepState.need]
  omega

theorem postSwitch_follows (hfeed : frame.feed < m.feeds.size)
    (h : postSwitch frame m = (.done (frame', state'), m')) :
    frame'.feed = frame.feed ∧ StepState.Follows frame.feed m .postSwitch m' state' := by
  have hshrink : Machine.FeedsShrink m m' := .of_run h
  have finished : StepState.Follows frame.feed m .postSwitch m' .finished := by
    refine ⟨trivial, ?_, hshrink.units_le _ hfeed⟩
    simp only [StepState.need]
    omega
  obtain ⟨next, m₁, h₁, h⟩ := Eval.run_bind_eq_done.1 h
  cases h₁
  obtain ⟨found, m₁, h₁, h⟩ := Eval.run_bind_eq_done.1 h
  have h₁ : wordAction? frame.feed (m.feed frame.feed).peek m = (.done found, m₁) := h₁
  obtain rfl : m = m₁ := by
    have hsame := wordAction?_run frame.feed (m.feed frame.feed).peek m
    rw [h₁] at hsame
    exact hsame.symm
  split at h
  · cases h
    exact ⟨rfl, finished⟩
  · have hpos : 0 < m.units frame.feed := by
      refine Nat.pos_of_ne_zero fun hz => ?_
      rw [Machine.units_eq_zero_iff.1 hz] at h₁
      cases h₁
    split at h
    · cases h
      exact ⟨rfl, finished⟩
    · split at h
      · obtain ⟨_, _, -, h⟩ := Eval.run_bind_eq_done.1 h
        cases h
        exact ⟨rfl, finished⟩
      · split at h
        · cases h
          exact ⟨rfl, finished⟩
        · obtain ⟨_, m₂, h₂, h⟩ := Eval.run_bind_eq_done.1 h
          cases h₂
          split at h
          · obtain ⟨_, _, -, h⟩ := Eval.run_bind_eq_done.1 h
            obtain ⟨_, _, -, h⟩ := Eval.run_bind_eq_done.1 h
            cases h
            exact ⟨rfl, finished⟩
          -- the operator is taken on, and its word consumed
          · obtain ⟨_, m₂, h₂, h⟩ := Eval.run_bind_eq_done.1 h
            cases h₂
            obtain ⟨_, m₃, h₃, h⟩ := Eval.run_bind_eq_done.1 h
            cases h₃
            cases h
            refine ⟨rfl, follows_of_late trivial (Nat.le_refl _) (Nat.sub_le _ _) ?_⟩
            have hunits : (m.updateFeed frame.feed fun f => { f with deferring := false }).units
                frame.feed = m.units frame.feed := m.units_updateFeed _ _ fun _ => rfl
            have hconsumed := consumed (hunits.symm ▸ hpos) (.refl _)
            rw [hunits] at hconsumed
            exact hconsumed

theorem transition_follows {state : StepState} (hfed : state.Fed m frame.feed)
    (hne : state ≠ .finished) (h : ev.transition frame state m = (.done (frame', state'), m')) :
    frame'.feed = frame.feed ∧ StepState.Follows frame.feed m state m' state' := by
  cases state with
  | start =>
    obtain ⟨s, m₁, h₁, h⟩ := Eval.run_bind_eq_done.1 h
    cases h
    exact ⟨rfl, startStep_follows h₁⟩
  | lookbackQuote unit =>
    obtain ⟨s, m₁, h₁, h⟩ := Eval.run_bind_eq_done.1 h
    cases h
    exact ⟨rfl, lookbackQuote_follows hfed h₁⟩
  | dispatch unit => exact dispatch_follows hfed h
  | processAction p => exact processAction_follows hfed h
  | postSwitch => exact postSwitch_follows hfed h
  | finished => exact absurd rfl hne

/-! ### Whole steps -/

/-- The step after a transition: on with the next state, or over with a signal. -/
def driveOn (ev : Evaluator) (fuel : Nat) (frame : Frame) :
    Except Signal (Frame × StepState) → Eval Stepped
  | .ok (frame, state) => ev.drive fuel frame state
  | .error s => do
    noteState frame "thrown"
    return { frame, signal := some s }

theorem drive_finished (fuel : Nat) : ev.drive (fuel + 1) frame .finished =
    noteState frame StepState.finished.name >>= fun _ => pure { frame } := rfl

theorem drive_of_ne {state : StepState} (hne : state ≠ .finished) (fuel : Nat) :
    ev.drive (fuel + 1) frame state =
      noteState frame state.name >>= fun _ =>
        (ev.transition frame state).catchSignal >>= ev.driveOn fuel frame := by
  cases state with
  | finished => exact absurd rfl hne
  | _ => rfl

theorem noteState_run (frame : Frame) (name : String) (m : Machine) :
    ∃ journal, noteState frame name m = (.done (), { m with journal }) := by
  unfold noteState
  simp only [Eval.run_command, Command.run]
  split
  · obtain ⟨journal, h⟩ := m.note_eq (.stepState m.tick frame.id name)
    exact ⟨journal, by rw [h]⟩
  · exact ⟨m.journal, rfl⟩

theorem drive_progress {fuel : Nat} {state : StepState} {stepped : Stepped}
    (hfed : state.Fed m frame.feed) (h : ev.drive fuel frame state m = (.done stepped, m')) :
    stepped.frame.feed = frame.feed ∧
      (stepped.signal = none → m'.units frame.feed ≤ state.leaves (m.units frame.feed)) := by
  induction fuel generalizing frame state m with
  | zero => cases h
  | succ fuel ih =>
    obtain ⟨journal, hnote⟩ := noteState_run frame state.name m
    by_cases hfin : state = .finished
    · subst hfin
      rw [drive_finished, Eval.run_bind_of_done hnote] at h
      cases h
      exact ⟨rfl, fun _ => Nat.le_refl _⟩
    · rw [drive_of_ne hfin, Eval.run_bind_of_done hnote] at h
      obtain ⟨r, m₁, h₁, h⟩ := Eval.run_bind_eq_done.1 h
      rcases Eval.catchSignal_eq_done h₁ with ⟨⟨frame₁, state₁⟩, rfl, ht⟩ | ⟨s, rfl, ht⟩
      · have hfed : state.Fed { m with journal } frame.feed := by
          cases state <;> exact hfed
        obtain ⟨hfeed, hfollows⟩ := transition_follows hfed hfin ht
        obtain ⟨hsame, hprogress⟩ := ih (hfeed ▸ hfollows.fed) h
        refine ⟨hsame.trans hfeed, fun hs => ?_⟩
        rw [hfeed] at hprogress
        exact Nat.le_trans (hprogress hs) hfollows.leaves_le
      · obtain ⟨_, _, -, h⟩ := Eval.run_bind_eq_done.1 h
        cases h
        exact ⟨rfl, fun hs => by cases hs⟩

theorem units_takeNoLookahead {id : FeedId} {b : Bool}
    (h : Eval.takeNoLookahead id m = (.done b, m')) (j : FeedId) : m'.units j = m.units j := by
  cases h
  exact m.units_updateFeed id j fun _ => rfl

theorem units_poll {s? : Option Signal} (h : Eval.poll m = (.done s?, m')) (j : FeedId) :
    m'.units j = m.units j := by
  obtain ⟨_, _, _, _, heq⟩ := m.poll_eq
  obtain rfl : m.poll.2 = m' := (Prod.mk.inj h).2
  rw [Machine.units, heq]
  rfl

/-- A step on a feed that is not at its end consumes a unit, unless it ends with a signal. -/
theorem evalStep_progress {stepped : Stepped} (h : ev.evalStep frame m = (.done stepped, m')) :
    stepped.frame.feed = frame.feed ∧
      (stepped.signal = none → m'.units frame.feed ≤ m.units frame.feed - 1) := by
  obtain ⟨_, m₁, h₁, h⟩ := Eval.run_bind_eq_done.1 h
  obtain ⟨s?, m₂, h₂, h⟩ := Eval.run_bind_eq_done.1 h
  have hunits : m₂.units frame.feed = m.units frame.feed :=
    (units_poll h₂ _).trans (units_takeNoLookahead h₁ _)
  cases s? with
  | some s =>
    cases h
    exact ⟨rfl, fun hs => by cases hs⟩
  | none =>
    obtain ⟨_, m₃, h₃, h⟩ := Eval.run_bind_eq_done.1 h
    cases h₃
    have hdrive := drive_progress (by trivial) h
    rw [← hunits]
    exact hdrive

end Evaluator

def Evaluator.Progresses (ev : Evaluator) : Prop :=
  ∀ frame m stepped m', ev.step frame m = (.done stepped, m') →
    stepped.frame.feed = frame.feed ∧
      (stepped.signal = none → m'.units frame.feed ≤ m.units frame.feed - 1)

theorem stepWithin_progresses (patience nesting : Nat) :
    Evaluator.Progresses ⟨stepWithin patience nesting, patience⟩ := by
  intro frame m stepped m' h
  cases nesting with
  | zero => cases h
  | succ nesting => exact Evaluator.evalStep_progress h

end Homoicon
