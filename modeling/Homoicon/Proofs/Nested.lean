import Homoicon.Proofs.Guard
import Homoicon.Proofs.Logic.Steps
import Homoicon.Proofs.Progress

/-!
# Nested evaluation under a guard

The fuel of every loop of the evaluator is enough, so an evaluator that may nest as deep as frames
may still be entered evaluates nested code well under every guard.
-/

namespace Homoicon

variable {F : Facts}

structure Stepped.Good (F : Facts) (s : Stepped) : Prop where
  frame : s.frame.Good F
  signal : ∀ signal, s.signal = some signal → signal.Good F

namespace Guard

variable {G : Guard F} {ev : Evaluator} {frame : Frame} {m : Machine} {nesting : Nat}

/-! ### One step -/

theorem noteState_at (hm : m.Good F) (name : String) :
    G.At (fun _ => True) (Evaluator.noteState frame name) m :=
  (At.command (.noteState frame.id name) hm trivial trivial).mono fun _ _ => trivial

theorem peekNext_holds {cur : Place} (feed : FeedId) :
    (G.logic nesting).Holds cur (Value.GoodMaybe F) (Eval.command (.peekNext feed)) :=
  fun _ hm => (At.command (.peekNext feed) hm.good trivial trivial).mono fun _ h => h.1

theorem lookback_holds {cur : Place} (feed : FeedId) :
    (G.logic nesting).Holds cur (fun _ => True) (Eval.command (.lookback feed)) :=
  fun _ hm => (At.command (.lookback feed) hm.good trivial trivial).mono fun _ _ => trivial

theorem drive_at (N : (G.logic nesting).Nested ev) (calls : (G.logic nesting).Calls ev)
    {fuel : Nat} {state : StepState} (hm : G.Fits nesting m) (hframe : frame.Good F) (hstate : state.Good F)
    (hfed : state.Fed m frame.feed) (hfuel : state.need (m.units frame.feed) ≤ fuel) :
    G.At (Stepped.Good F) (ev.drive fuel frame state) m := by
  induction fuel generalizing frame state m with
  | zero =>
    exfalso
    revert hfuel
    cases state <;> simp [StepState.need]
  | succ fuel ih =>
    by_cases hfin : state = .finished
    · subst hfin
      refine At.bind (noteState_at hm.good _) fun _ m₁ _ _ hm₁ => .ret hm₁ ?_
      exact ⟨hframe, by simp⟩
    · rw [Evaluator.drive_of_ne hfin]
      refine At.bind (noteState_at hm.good _) fun _ m₁ h₁ _ hm₁ => ?_
      obtain ⟨journal, hnote⟩ := Evaluator.noteState_run frame state.name m
      obtain rfl : { m with journal } = m₁ := by
        rw [hnote] at h₁
        exact (Prod.mk.inj h₁).2
      have hfits : G.Fits nesting { m with journal } := hm.of_run hnote hm₁
      have htrans : G.At (fun r => r.1.Good F ∧ r.2.Good F) (ev.transition frame state)
          { m with journal } :=
        at_of_holds hfits ((G.logic nesting).transition N calls hframe hstate
          (fun _ _ => peekNext_holds frame.feed) fun _ _ => lookback_holds frame.feed)
      refine At.bind htrans.catchSignal fun r m₂ h₂ hr hm₂ => ?_
      rcases Eval.catchSignal_eq_done h₂ with ⟨⟨frame₁, state₁⟩, rfl, ht⟩ | ⟨s, rfl, ht⟩
      · have hfed : state.Fed { m with journal } frame.feed := by
          cases state <;> exact hfed
        obtain ⟨hfeed, hfollows⟩ := Evaluator.transition_follows hfed hfin ht
        refine ih (hfits.of_run ht hm₂) hr.1 hr.2 (hfeed ▸ hfollows.fed) ?_
        rw [hfeed]
        exact Nat.le_of_lt_succ (Nat.lt_of_lt_of_le hfollows.need_lt hfuel)
      · refine At.bind (noteState_at hm₂ _) fun _ m₃ _ _ hm₃ => .ret hm₃ ⟨hframe, ?_⟩
        rintro _ ⟨⟩
        exact hr

theorem evalStep_at (N : (G.logic nesting).Nested ev) (calls : (G.logic nesting).Calls ev)
    (hm : G.Fits nesting m) (hframe : frame.Good F) : G.At (Stepped.Good F) (ev.evalStep frame) m := by
  refine At.bind (at_of_holds hm (G.logic nesting).takeNoLookahead) fun noLookahead m₁ h₁ _ hm₁ => ?_
  have hfits₁ := hm.of_run h₁ hm₁
  refine At.bind (At.command .poll hm₁ trivial trivial) fun s? m₂ h₂ hs hm₂ => ?_
  have hfits₂ := hfits₁.of_run h₂ hm₂
  cases s? with
  | some s =>
    refine .ret hm₂ ⟨hframe, ?_⟩
    rintro _ ⟨⟩
    rw [m₁.poll_signal hs.2.symm]
    trivial
  | none =>
    refine At.bind (At.command (.unitsLeft frame.feed) hm₂ trivial trivial) fun units m₃ h₃ _ hm₃ => ?_
    cases h₃
    exact drive_at N calls hfits₂ hframe trivial trivial (Nat.le_refl _)

/-! ### Many steps -/

/-- The steps of an evaluator end well where code may nest `nesting` frames deep. -/
def Steps (G : Guard F) (nesting : Nat) (ev : Evaluator) : Prop :=
  ∀ frame m, G.Fits nesting m → frame.Good F → G.At (Stepped.Good F) (ev.step frame) m

theorem step_at {β : Type} {Q : β → Prop} {next : Frame → Eval β} (hsteps : G.Steps nesting ev)
    (hprogress : ev.Progresses) (hm : G.Fits nesting m) (hframe : frame.Good F)
    (hnext : ∀ (frame' : Frame) (m' : Machine), G.Fits nesting m' → frame'.Good F →
      frame'.feed = frame.feed → m'.units frame.feed ≤ m.units frame.feed - 1 →
      G.At Q (next frame') m') :
    G.At Q (ev.step frame >>= fun stepped => stepped.frameOrThrow >>= next) m := by
  refine At.bind (hsteps frame m hm hframe) fun stepped m₁ h₁ hst hm₁ => ?_
  obtain ⟨hfeed, hunits⟩ := hprogress frame m stepped m₁ h₁
  cases hs : stepped.signal with
  | some s =>
    simp only [Stepped.frameOrThrow, hs]
    exact .signal hm₁ (hst.signal s hs)
  | none =>
    simp only [Stepped.frameOrThrow, hs]
    exact hnext stepped.frame m₁ (hm.of_run h₁ hm₁) hst.frame hfeed (hunits hs)

theorem units_of_atEnd {feed : FeedId} {b : Bool} {m' : Machine}
    (h : Eval.atEnd feed m = (.done b, m')) : m' = m ∧ (b = true ↔ m.units feed = 0) := by
  cases h
  rw [Machine.units_eq_zero_iff]
  exact ⟨rfl, Option.isNone_iff_eq_none⟩

theorem stepToEnd_at (hsteps : G.Steps nesting ev) (hprogress : ev.Progresses) {fuel : Nat}
    (hm : G.Fits nesting m) (hframe : frame.Good F) (hfuel : m.units frame.feed ≤ fuel) :
    G.At (Frame.Good F) (ev.stepToEnd fuel frame) m := by
  induction fuel generalizing frame m with
  | zero =>
    refine At.bind (at_of_holds hm (G.logic nesting).atEnd) fun ended m₁ h₁ _ hm₁ => ?_
    rw [(units_of_atEnd h₁).2.2 (Nat.le_zero.1 hfuel)]
    exact .ret hm₁ hframe
  | succ fuel ih =>
    refine At.bind (at_of_holds hm (G.logic nesting).atEnd) fun ended m₁ h₁ _ hm₁ => ?_
    obtain ⟨rfl, -⟩ := units_of_atEnd h₁
    split
    · exact .ret hm₁ hframe
    · refine step_at hsteps hprogress hm hframe fun frame' m₂ hm₂ hframe' hfeed hunits => ?_
      refine ih hm₂ hframe' ?_
      rw [hfeed]
      omega

theorem collect_at (hsteps : G.Steps nesting ev) (hprogress : ev.Progresses) {fuel : Nat}
    {feed : FeedId} {values : List Value} (hm : G.Fits nesting m) (hframe : frame.Good F)
    (hfeed : frame.feed = feed) (hvalues : Value.GoodAll F values) (hfuel : m.units feed ≤ fuel) :
    G.At (Value.GoodAll F) (Evaluator.reduceUnits.collect ev feed fuel frame values) m := by
  induction fuel generalizing frame m values with
  | zero =>
    refine At.bind (at_of_holds hm (G.logic nesting).atEnd) fun ended m₁ h₁ _ hm₁ => ?_
    rw [(units_of_atEnd h₁).2.2 (Nat.le_zero.1 hfuel)]
    exact .ret hm₁ hvalues.reverse
  | succ fuel ih =>
    refine At.bind (at_of_holds hm (G.logic nesting).atEnd) fun ended m₁ h₁ _ hm₁ => ?_
    obtain ⟨rfl, -⟩ := units_of_atEnd h₁
    split
    · exact .ret hm₁ hvalues.reverse
    · refine step_at hsteps hprogress hm hframe fun frame' m₂ hm₂ hframe' hfeed' hunits => ?_
      have hfuel' : m₂.units feed ≤ fuel := by
        rw [hfeed] at hunits
        omega
      have hget := hframe'.get?
      split
      · rename_i v hv
        rw [hv] at hget
        refine ih hm₂ hframe' (hfeed'.trans hfeed) ?_ hfuel'
        split
        · exact hvalues
        · exact ⟨hget, hvalues⟩
      · exact ih hm₂ hframe' (hfeed'.trans hfeed) hvalues hfuel'

theorem units_of_atArgumentEnd {feed : FeedId} {b : Bool} {m' : Machine}
    (h : Eval.atArgumentEnd feed m = (.done b, m')) : m' = m ∧ (m.units feed = 0 → b = true) := by
  obtain ⟨unit?, m₁, h₁, h⟩ := Eval.run_bind_eq_done.1 h
  cases h₁
  split at h
  · cases h
    exact ⟨rfl, fun _ => rfl⟩
  · cases h
    exact ⟨rfl, fun _ => rfl⟩
  · rename_i hsome
    cases h
    refine ⟨rfl, fun hz => ?_⟩
    rw [Machine.units_eq_zero_iff] at hz
    exact absurd (hz ▸ hsome) (by simp)

theorem units_setNoLookahead {feed : FeedId} {b : Bool} {m' : Machine}
    (h : Eval.onlyIf b (Eval.setNoLookahead feed) m = (.done (), m')) (j : FeedId) :
    m'.units j = m.units j := by
  cases b with
  | false =>
    cases h
    rfl
  | true =>
    cases h
    exact m.units_updateFeed feed j fun _ => rfl

theorem stepToVisible_at (hsteps : G.Steps nesting ev) (hprogress : ev.Progresses) {fuel : Nat}
    {suppressed : Bool} (hm : G.Fits nesting m) (hframe : frame.Good F)
    (hfuel : m.units frame.feed < fuel) :
    G.At (Stepped.Good F) (ev.stepToVisible suppressed fuel frame) m := by
  induction fuel generalizing frame m with
  | zero => exact absurd hfuel (Nat.not_lt_zero _)
  | succ fuel ih =>
    refine At.bind (at_of_holds hm ((G.logic nesting).onlyIf
      (fun _ => (G.logic nesting).setNoLookahead) fun _ => trivial)) fun _ m₁ h₁ _ hm₁ => ?_
    have hunits₁ := units_setNoLookahead h₁ frame.feed
    have hfits₁ := hm.of_run h₁ hm₁
    refine At.bind (hsteps frame m₁ hfits₁ hframe) fun stepped m₂ h₂ hst hm₂ => ?_
    obtain ⟨hfeed, hunits₂⟩ := hprogress frame m₁ stepped m₂ h₂
    have hfits₂ := hfits₁.of_run h₂ hm₂
    split
    · exact .ret hm₂ hst
    · rename_i hs
      refine At.bind (at_of_holds hfits₂ (G.logic nesting).atArgumentEnd) fun ended m₃ h₃ _ hm₃ => ?_
      obtain ⟨rfl, hended⟩ := units_of_atArgumentEnd h₃
      split
      · exact .ret hm₃ hst
      · rename_i hgo
        -- there is more to step on, so the step before has consumed something
        have hmore : m₃.units stepped.frame.feed ≠ 0 := fun hz => hgo (by simp [hended hz])
        refine ih hfits₂ hst.frame ?_
        have hle := hunits₂ hs
        rw [hfeed] at hmore ⊢
        omega

theorem stepVisible_at (hsteps : G.Steps nesting ev) (hprogress : ev.Progresses)
    (hm : G.Fits nesting m) (hframe : frame.Good F) :
    G.At (Stepped.Good F) (ev.stepVisible frame) m := by
  refine At.bind (at_of_holds hm (G.logic nesting).takeNoLookahead) fun suppressed m₁ h₁ _ hm₁ => ?_
  have hfits₁ := hm.of_run h₁ hm₁
  refine At.bind (At.command (.unitsLeft frame.feed) hm₁ trivial trivial) fun units m₂ h₂ _ hm₂ => ?_
  cases h₂
  exact stepToVisible_at hsteps hprogress hfits₁ hframe (Nat.lt_succ_self _)

theorem frameOrThrow_at {stepped : Stepped} (hm : m.Good F) (h : stepped.Good F) :
    G.At (· = stepped.frame) stepped.frameOrThrow m := by
  unfold Stepped.frameOrThrow
  split
  · rename_i s hs
    exact .signal hm (h.signal s hs)
  · exact .ret hm rfl

/-! ### Frames of their own -/

theorem Fits.enter {label : Option String} (hm : G.Fits (nesting + 1) m)
    (hroom : m.depth < G.maxDepth) : G.Fits nesting (m.enter label) := by
  refine ⟨⟨hm.good.scopes, hm.good.feeds, hm.good.snapshots⟩, hm.config, hroom, ?_⟩
  have hr := hm.room
  show G.maxDepth ≤ nesting + (m.depth + 1)
  omega

/-- Nested code ends well if the steps that it is run by do, or if no frame may be entered. -/
theorem nested_of_steps (hprogress : ev.Progresses)
    (hsteps : ∀ k, nesting = k + 1 → G.Steps k ev) : (G.logic nesting).Nested ev := by
  have within : ∀ {α : Type} {Q : α → Prop} {feed : FeedId} {body : Frame → Eval α} {m : Machine},
      G.Fits nesting m → (∀ k, nesting = k + 1 → ∀ (id : FrameId) (m' : Machine), G.Fits k m' →
        m'.feeds = m.feeds → G.At Q (body { id, feed }) m') →
      G.At Q (withFrame feed none body) m := by
    intro α Q feed body m hm hbody
    refine At.inFrame hm fun hroom => ?_
    cases nesting with
    | zero =>
      have hr := hm.room
      omega
    | succ k => exact hbody k rfl _ _ (hm.enter hroom) rfl
  have fresh : ∀ id feed, Frame.Good F { id, feed } := fun _ _ => trivial
  constructor
  · intro cur units scope hunits m hm
    refine At.bind (At.command (.newFeed units scope) hm.good hunits trivial) fun feed m₁ h₁ _ hm₁ => ?_
    refine within (hm.of_run h₁ hm₁) fun k hk id m₂ hm₂ _ => ?_
    refine At.bind (At.command (.unitsLeft feed) hm₂.good trivial trivial) fun left m₃ h₃ hleft hm₃ => ?_
    cases h₃
    refine At.bind (stepToEnd_at (hsteps k hk) hprogress hm₂ (fresh id feed) (Nat.le_refl _))
      fun frame m₄ _ hf hm₄ => .ret hm₄ hf
  · intro cur feed fulfilling m hm
    refine within hm fun k hk id m₁ hm₁ _ => ?_
    refine At.bind (stepVisible_at (hsteps k hk) hprogress hm₁ (fresh id feed))
      fun stepped m₂ _ hst hm₂ => ?_
    refine At.bind (frameOrThrow_at hm₂ hst) fun frame m₃ _ hf hm₃ => .ret hm₃ ?_
    rw [hf]
    exact hst.frame.get?
  · intro cur units scope hunits m hm
    refine At.bind (At.command (.newFeed units scope) hm.good hunits trivial) fun feed m₁ h₁ _ hm₁ => ?_
    refine within (hm.of_run h₁ hm₁) fun k hk id m₂ hm₂ hfeeds => ?_
    have hlength : m₂.units feed = units.length := by
      cases h₁
      rw [Machine.units, Machine.feed_eq, hfeeds]
      simp
    exact collect_at (hsteps k hk) hprogress hm₂ (fresh id feed) rfl trivial (Nat.le_of_eq hlength)

/-- Nested code ends well under a guard if calls do, and if the evaluator may nest deep enough. -/
theorem nested_of_calls (G : Guard F)
    (calls : ∀ nesting ev, (G.logic nesting).Nested ev → (G.logic nesting).Calls ev)
    (patience nesting : Nat) :
    (G.logic nesting).Nested ⟨stepWithin patience nesting, patience⟩ := by
  induction nesting with
  | zero => exact nested_of_steps (stepWithin_progresses patience 0) fun k hk => by cases hk
  | succ nesting ih =>
    refine nested_of_steps (stepWithin_progresses patience (nesting + 1)) fun k hk => ?_
    cases hk
    exact fun frame m hm hframe => evalStep_at ih (calls _ _ ih) hm hframe

theorem nested (G : Guard F) (patience nesting : Nat)
    (lenient : G.Lenient := by intro _ _; trivial) :
    (G.logic nesting).Nested ⟨stepWithin patience nesting, patience⟩ :=
  G.nested_of_calls (fun nesting _ N => (G.logic nesting).calls (fun n c => begins nesting (lenient n c)) N)
    patience nesting

end Guard

end Homoicon
