import Homoicon.Proofs.Mirror
import Homoicon.Proofs.Nested

/-!
# The unit consumed last

A feed remembers the unit that it consumed last, and only a call that fails looks back at it.  Every
call on a feed begins behind the unit that names its action, so whatever begins on a feed afresh
does the same there, whichever unit was consumed before.
-/

namespace Homoicon

/-- The feed with another unit as the one consumed last, if `n` units of it are left. -/
def Feed.relook (unit : Value) (n : Nat) (f : Feed) : Feed :=
  if f.units.length = n then { f with lookback := some unit } else f

namespace Feed

variable (unit : Value) (n : Nat) (f : Feed)

theorem relook_eq : ∃ lookback, f.relook unit n = { f with lookback } := by
  unfold relook
  split
  · exact ⟨some unit, rfl⟩
  · exact ⟨f.lookback, rfl⟩

theorem relook_of_ne (h : f.units.length ≠ n) : f.relook unit n = f := if_neg h

/-- A mark on a feed has nothing to do with the unit consumed last. -/
theorem relook_mark {g : Feed → Feed} (hunits : ∀ f, (g f).units = f.units)
    (hg : ∀ (f : Feed) lookback, g { f with lookback } = { g f with lookback }) :
    g (f.relook unit n) = (g f).relook unit n := by
  have hsame : (g f).units.length = f.units.length := by rw [hunits]
  by_cases hn : f.units.length = n
  · rw [relook, relook, if_pos hn, if_pos (hsame.trans hn)]
    exact hg f _
  · rw [relook, relook, if_neg hn, if_neg (hsame.symm ▸ hn)]

theorem advance_relook (h : f.units.length ≤ n) :
    (f.relook unit n).advance = f.advance.relook unit n := by
  obtain ⟨units, scope, lookback, noLookahead, deferring⟩ := f
  cases units with
  | nil => by_cases hn : 0 = n <;> simp [relook, advance, hn]
  | cons u us =>
    have hfewer : ¬us.length = n := Nat.ne_of_lt h
    by_cases hn : us.length + 1 = n <;> simp [relook, advance, hn, hfewer]

end Feed

namespace Machine

variable (id : FeedId) (unit : Value) (n : Nat) (m : Machine)

/-- The machine with another unit as the one consumed last from a feed, if `n` units of it are
left. -/
def relook : Machine := m.updateFeed id (Feed.relook unit n)

/-- At most `n` units of the feed are left. -/
structure LeavesAtMost : Prop where
  size : id < m.feeds.size
  units_le : m.units id ≤ n

variable {id unit n m}

theorem LeavesAtMost.of_run {α : Type} {x : Eval α} {m' : Machine} {o : Outcome α}
    (h : LeavesAtMost id n m) (hrun : x m = (o, m')) : LeavesAtMost id n m' := by
  have hshrink : FeedsShrink m m' := .of_run hrun
  exact ⟨Nat.lt_of_lt_of_le h.size hshrink.size_le,
    Nat.le_trans (hshrink.units_le id h.size) h.units_le⟩

theorem updateFeed_of_eq {f : Feed → Feed} (h : f (m.feed id) = m.feed id) :
    m.updateFeed id f = m := by
  have hfeeds : m.feeds.modify id (fun feed => feed) = m.feeds := by
    apply Array.ext_getElem?
    intro j
    rw [Array.getElem?_modify]
    split <;> simp
  have hsame : m.updateFeed id (fun feed => feed) = m := by rw [updateFeed, hfeeds]
  exact (updateFeed_congr h).trans hsame

theorem relook_of_ne (h : m.units id ≠ n) : m.relook id unit n = m :=
  updateFeed_of_eq (Feed.relook_of_ne unit n _ h)

theorem relook_feed_ne {j : FeedId} (h : j ≠ id) : (m.relook id unit n).feed j = m.feed j := by
  rw [relook, feed_updateFeed, if_neg fun hj => h hj.1.symm]

theorem relook_feed (m : Machine) (id : FeedId) (unit : Value) (n : Nat) (j : FeedId) :
    ∃ lookback, (m.relook id unit n).feed j = { m.feed j with lookback } := by
  rw [relook, feed_updateFeed]
  split
  · exact Feed.relook_eq unit n _
  · exact ⟨(m.feed j).lookback, rfl⟩

theorem relook_updateFeed (j : FeedId) {f : Feed → Feed}
    (h : f ((m.feed id).relook unit n) = (f (m.feed id)).relook unit n) :
    (m.relook id unit n).updateFeed j f = (m.updateFeed j f).relook id unit n := by
  by_cases hj : id = j
  · subst hj
    rw [relook, relook, updateFeed_updateFeed, updateFeed_updateFeed]
    exact updateFeed_congr h
  · exact updateFeed_comm m id hj

end Machine

/-- The moment on another machine. -/
def Moment.on (g : Machine → Machine) : Moment → Moment
  | .asked c m => .asked c (g m)
  | .entered label m => .entered label (g m)
  | .refused m => .refused (g m)
  | .left id m => .left id (g m)
  | .raised s m => .raised s (g m)
  | .faulted f m => .faulted f (g m)
  | .gaveUp m => .gaveUp (g m)

theorem Moment.on_of_eq {g : Machine → Machine} {k : Moment} (h : g k.before = k.before) :
    k.on g = k := by
  cases k <;> exact congrArg _ h

/-- What `x` does on `m`, it does in the same way whichever unit the feed `id` consumed last while
`n` units of it are left. -/
structure Overlooks {α : Type} (id : FeedId) (unit : Value) (n : Nat) (x : Eval α) (m : Machine) :
    Prop where
  run : x (m.relook id unit n) = ((x m).1, (x m).2.relook id unit n)
  trace : x.trace (m.relook id unit n) = (x.trace m).map (Moment.on (Machine.relook id unit n))

namespace Overlooks

variable {α β : Type} {id : FeedId} {unit : Value} {n : Nat} {m : Machine} {x : Eval α}

/-- A feed that has consumed more does not remember the unit any more. -/
theorem of_fewer (hid : id < m.feeds.size) (h : m.units id < n) : Overlooks id unit n x m := by
  have same : ∀ m', Machine.FeedsShrink m m' → m'.relook id unit n = m' := fun m' hm' =>
    Machine.relook_of_ne (Nat.ne_of_lt (Nat.lt_of_le_of_lt (hm'.units_le id hid) h))
  obtain ⟨hmoments, hend⟩ := x.trace_feeds m
  have hm := same m (.refl m)
  have hmap : (x.trace m).map (Moment.on (Machine.relook id unit n)) = (x.trace m).map fun k => k :=
    List.map_congr_left fun k hk => Moment.on_of_eq (same _ (hmoments k hk))
  constructor
  · rw [hm, same _ hend]
  · rw [hm, hmap, List.map_id']

theorem ret {a : α} : Overlooks id unit n (pure a) m := ⟨rfl, rfl⟩

theorem fail {f : Fault} : Overlooks id unit n (.fail f : Eval α) m := ⟨rfl, rfl⟩

theorem signal {s : Signal} : Overlooks id unit n (.signal s : Eval α) m := ⟨rfl, rfl⟩

theorem exhaust : Overlooks id unit n (.exhaust : Eval α) m := ⟨rfl, rfl⟩

theorem bind {f : α → Eval β} (hx : Overlooks id unit n x m)
    (hf : ∀ a m', x m = (.done a, m') → Overlooks id unit n (f a) m') :
    Overlooks id unit n (x >>= f) m := by
  rcases hrun : x m with ⟨a | s | e | _, m'⟩
  · have hx' : x (m.relook id unit n) = (.done a, m'.relook id unit n) := by rw [hx.run, hrun]
    have hrest := hf a m' hrun
    constructor
    · rw [Eval.run_bind_of_done hx', Eval.run_bind_of_done hrun, hrest.run]
    · rw [Eval.trace_bind, Eval.trace_bind, hx', hrun, hx.trace, List.map_append]
      exact congrArg _ hrest.trace
  all_goals
    constructor
    · rw [Eval.run_bind, Eval.run_bind, hx.run, hrun]
    · rw [Eval.trace_bind, Eval.trace_bind, hx.run, hrun, hx.trace, List.map_append]
      rfl

theorem catchSignal (hx : Overlooks id unit n x m) : Overlooks id unit n x.catchSignal m := by
  constructor
  · rw [x.run_catchSignal, x.run_catchSignal, hx.run]
  · rw [x.trace_catchSignal, x.trace_catchSignal, hx.trace]

theorem catchFault (hx : Overlooks id unit n x m) : Overlooks id unit n x.catchFault m := by
  constructor
  · rw [x.run_catchFault, x.run_catchFault, hx.run]
  · rw [x.trace_catchFault, x.trace_catchFault, hx.trace]

theorem inFrame {label : Option String} {body : FrameId → Eval α}
    (h : Overlooks id unit n (body m.nextFrame) (m.enter label)) :
    Overlooks id unit n (.inFrame label body .done) m := by
  have hnext : (m.relook id unit n).nextFrame = m.nextFrame := rfl
  have henter : (m.relook id unit n).enter label = (m.enter label).relook id unit n := rfl
  have hbody := h.run
  have htrace := h.trace
  by_cases hroom : m.config.maxDepth ≤ m.depth
  · have hroom' : (m.relook id unit n).config.maxDepth ≤ (m.relook id unit n).depth := hroom
    constructor
    · simp only [Eval.run, hroom, hroom', if_true]
      rfl
    · simp only [Eval.trace, hroom, hroom', if_true]
      rfl
  · have hroom' : ¬(m.relook id unit n).config.maxDepth ≤ (m.relook id unit n).depth := hroom
    constructor
    · rw [Eval.run_inFrame hroom, Eval.run_inFrame hroom', hnext, henter, hbody]
      rfl
    · rw [Eval.trace_inFrame hroom, Eval.trace_inFrame hroom', hnext, henter, hbody, htrace]
      simp only [List.map_cons, List.map_append]
      rfl

theorem of_run {c : Command β}
    (h : c.run (m.relook id unit n) = ((c.run m).1, (c.run m).2.relook id unit n)) :
    Overlooks id unit n (Eval.command c) m := by
  constructor
  · rw [Eval.run_command, Eval.run_command, h]
  · rfl

/-- A command that looks at one feed, but not at the unit consumed last. -/
theorem of_feed (c : Command β) (j : FeedId) (look : Feed → β)
    (hc : ∀ n : Machine, c.run n = (look (n.feed j), n))
    (hlook : ∀ (feed : Feed) lookback, look { feed with lookback } = look feed) :
    Overlooks id unit n (Eval.command c) m := by
  obtain ⟨lookback, hfeed⟩ := m.relook_feed id unit n j
  exact of_run (by rw [hc, hc, hfeed, hlook])

theorem of_other (c : Command β) {j : FeedId} (hj : j ≠ id) (look : Feed → β)
    (hc : ∀ n : Machine, c.run n = (look (n.feed j), n)) :
    Overlooks id unit n (Eval.command c) m :=
  of_run (by rw [hc, hc, Machine.relook_feed_ne hj])

theorem of_updateFeed (c : Command Unit) (j : FeedId) {f : Feed → Feed}
    (hc : ∀ n : Machine, c.run n = ((), n.updateFeed j f))
    (h : f ((m.feed id).relook unit n) = (f (m.feed id)).relook unit n) :
    Overlooks id unit n (Eval.command c) m :=
  of_run (by rw [hc, hc, Machine.relook_updateFeed j h])

end Overlooks

/-- Whether a command sees the unit that the feed `id` consumed last. -/
def Command.LooksBack (id : FeedId) : {β : Type} → Command β → Prop
  | _, .feed j | _, .lookback j => j = id
  | _, _ => False

theorem Command.IsPlain.not_looksBack {β : Type} {c : Command β} (h : c.IsPlain) (id : FeedId) :
    ¬c.LooksBack id := by
  cases c with
  | feed j | lookback j => exact h.elim
  | _ => exact fun h => h

theorem Overlooks.command {β : Type} {id : FeedId} {unit : Value} {n : Nat} {m : Machine}
    (c : Command β) (hm : m.LeavesAtMost id n) (h : ¬c.LooksBack id) :
    Overlooks id unit n (Eval.command c) m := by
  cases c with
  | newFeed us scope =>
    have hsize : (m.relook id unit n).feeds.size = m.feeds.size := by
      simp [Machine.relook, Machine.updateFeed]
    have hpush := m.modify_push_feeds id hm.size (Feed.relook unit n) { units := us, scope }
    refine .of_run ?_
    simp only [Command.run, hsize]
    simp only [Machine.relook, Machine.updateFeed, hpush]
  | advance j => exact .of_updateFeed _ j (fun _ => rfl) (Feed.advance_relook unit n _ hm.units_le)
  | setNoLookahead j b =>
    exact .of_updateFeed _ j (fun _ => rfl) (Feed.relook_mark unit n (m.feed id)
      (g := fun f => { f with noLookahead := b }) (fun _ => rfl) fun _ _ => rfl)
  | setDeferring j b =>
    exact .of_updateFeed _ j (fun _ => rfl) (Feed.relook_mark unit n (m.feed id)
      (g := fun f => { f with deferring := b }) (fun _ => rfl) fun _ _ => rfl)
  | feed j => exact .of_other _ h (fun f => f) fun _ => rfl
  | lookback j => exact .of_other _ h Feed.lookback fun _ => rfl
  | peek j => exact .of_feed _ j Feed.peek (fun _ => rfl) fun _ _ => rfl
  | peekNext j => exact .of_feed _ j Feed.peekNext (fun _ => rfl) fun _ _ => rfl
  | unitsLeft j => exact .of_feed _ j (fun f => f.units.length) (fun _ => rfl) fun _ _ => rfl
  | scopeOf j => exact .of_feed _ j Feed.scope (fun _ => rfl) fun _ _ => rfl
  | noLookahead j => exact .of_feed _ j Feed.noLookahead (fun _ => rfl) fun _ _ => rfl
  | deferring j => exact .of_feed _ j Feed.deferring (fun _ => rfl) fun _ _ => rfl
  | note e => exact .of_run (congrArg _ (m.updateFeed_note id _ e))
  | noteState frame state => exact .of_run (m.updateFeed_noteState id _ frame state)
  | assign scope name v => exact .of_run (congrArg _ (m.updateFeed_assign id _ scope name v))
  | poll => exact .of_run (m.updateFeed_poll id _)
  | _ => exact .of_run rfl

/-- As long as at most `n` units of the feed `id` are left, `x` does not see which one it consumed
last; its results satisfy `Q`. -/
structure Blind {α : Type} (id : FeedId) (unit : Value) (n : Nat) (Q : α → Prop) (x : Eval α) :
    Prop where
  returns : x.Returns Q
  overlooks : ∀ {m : Machine}, m.LeavesAtMost id n → Overlooks id unit n x m

namespace Blind

variable {α β : Type} {id : FeedId} {unit : Value} {n : Nat} {P Q : α → Prop} {x : Eval α}

theorem ret {a : α} (h : Q a) : Blind id unit n Q (pure a) := ⟨.pure h, fun _ => .ret⟩

theorem fail {f : Fault} : Blind id unit n Q (.fail f) := ⟨.fail, fun _ => .fail⟩

theorem signal {s : Signal} : Blind id unit n Q (.signal s) :=
  ⟨by rintro _ _ _ ⟨⟩, fun _ => .signal⟩

theorem exhaust : Blind id unit n Q .exhaust := ⟨by rintro _ _ _ ⟨⟩, fun _ => .exhaust⟩

theorem bind {Q : β → Prop} {f : α → Eval β} (hx : Blind id unit n P x)
    (hf : ∀ a, P a → Blind id unit n Q (f a)) : Blind id unit n Q (x >>= f) where
  returns := hx.returns.bind fun a ha => (hf a ha).returns
  overlooks hm := (hx.overlooks hm).bind fun a m' hrun =>
    (hf a (hx.returns _ a m' hrun)).overlooks (hm.of_run hrun)

theorem command {c : Command β} {Q : β → Prop} (h : ¬c.LooksBack id) (hQ : ∀ m, Q (c.run m).1) :
    Blind id unit n Q (Eval.command c) where
  returns := by
    rintro m _ _ ⟨⟩
    exact hQ m
  overlooks hm := .command c hm h

theorem catchSignal (hx : Blind id unit n Q x) :
    Blind id unit n (fun r => ∀ a, r = .ok a → Q a) x.catchSignal where
  returns m r m' hr a ha := by
    subst ha
    rcases Eval.catchSignal_eq_done hr with ⟨_, ⟨⟩, hdone⟩ | ⟨_, ⟨⟩, -⟩
    exact hx.returns m a m' hdone
  overlooks hm := (hx.overlooks hm).catchSignal

theorem catchFault (hx : Blind id unit n Q x) :
    Blind id unit n (Facts.all.Caught Q) x.catchFault where
  returns m r m' hr := by
    rw [x.run_catchFault] at hr
    rcases hrun : x m with ⟨a | s | e | _, m''⟩ <;> rw [hrun] at hr <;> cases hr
    · exact hx.returns m _ _ hrun
    · exact fun _ _ => trivial
  overlooks hm := (hx.overlooks hm).catchFault

theorem inFrame {label : Option String} {body : FrameId → Eval α}
    (h : ∀ frame, Blind id unit n Q (body frame)) :
    Blind id unit n Q (.inFrame label body .done) where
  returns m a m' ha := by
    by_cases hroom : m.config.maxDepth ≤ m.depth
    · simp only [Eval.run, hroom, if_true] at ha
      cases ha
    · rw [Eval.run_inFrame hroom] at ha
      rcases hrun : (body m.nextFrame) (m.enter label) with ⟨b | s | e | _, m''⟩ <;>
        rw [hrun] at ha <;> cases ha
      exact (h m.nextFrame).returns _ _ _ hrun
  overlooks hm := .inFrame ((h _).overlooks ⟨hm.size, hm.units_le⟩)

theorem handle {taker : Taker} {take : Signal → Eval α} (hx : Blind id unit n Q x)
    (htake : ∀ s, taker.takes s = true → Blind id unit n Q (take s)) :
    Blind id unit n Q (x.handle taker take) := by
  refine hx.catchSignal.bind fun r hr => ?_
  cases r with
  | ok a => exact ret (hr a rfl)
  | error s =>
    dsimp only
    split
    · rename_i htakes
      exact bind (P := fun _ => True) (command (fun h => h) fun _ => trivial)
        fun _ _ => htake s htakes
    · exact signal

end Blind

def blindness (id : FeedId) (unit : Value) (n : Nat) : Logic Facts.all where
  Holds _ Q x := Blind id unit n Q x
  exempt _ := False
  patient := True
  ret h := .ret h
  bind hx hf := hx.bind hf
  fail _ := .fail
  signal _ := .signal
  exhaust _ := .exhaust
  ask c plain h := .command (plain.not_looksBack id) fun m => (c.run_good m.good_all h).1
  handle _ hx htake := hx.handle fun s ht => htake s (Value.good_all _) ht
  catchFault hx := hx.catchFault
  inFrame h := .inFrame h
  whileTrue _ _ := .inr trivial
  host _ _ _ _ := trivial

theorem blindness_begins (id : FeedId) (unit : Value) (n : Nat) (k : Native) (c : CallState) :
    (blindness id unit n).Begins k c where
  operation h := Blind.bind (P := fun _ => True) (.command (fun h => h) fun _ => trivial)
    fun _ _ => h fun h => h

theorem Blind.of_holds {α : Type} {id : FeedId} {unit : Value} {n : Nat} {Q : α → Prop} {x : Eval α}
    (h : (blindness id unit n).Holds {} Q x) : Blind id unit n Q x := h

/-! ### One step -/

namespace Evaluator

variable {ev : Evaluator} {frame : Frame} {id : FeedId} {unit : Value} {n : Nat} {m : Machine}

/-- A step that runs a call on the feed has consumed the unit that names its action. -/
def Behind (id : FeedId) (n : Nat) (frame : Frame) (state : StepState) (m : Machine) : Prop :=
  frame.feed = id → ∀ p, state = .processAction p → m.units id < n

theorem behind_of_transition {state state' : StepState} {frame' : Frame} {m' : Machine}
    (hm : m.LeavesAtMost id n) (hbehind : Behind id n frame state m)
    (hfed : state.Fed m frame.feed) (hne : state ≠ .finished)
    (h : ev.transition frame state m = (.done (frame', state'), m')) :
    Behind id n frame' state' m' := by
  rintro hfeed' p rfl
  obtain ⟨hsame, hfollows⟩ := transition_follows hfed hne h
  obtain rfl : frame.feed = id := hsame.symm.trans hfeed'
  have hunits := hm.units_le
  have hneed := hfollows.need_lt
  cases state with
  | start =>
    obtain ⟨s, m₁, h₁, h⟩ := Eval.run_bind_eq_done.1 h
    cases h
    have hstart : (startStep frame).Returns fun s => ∀ p, s ≠ .processAction p := by
      refine .after fun unit? => ?_
      split
      · exact .pure (by simp)
      · exact .after fun _ => .pure (by simp)
      · exact .pure (by simp)
    exact absurd rfl (hstart m _ m' h₁ p)
  | processAction q =>
    have hfewer := hbehind rfl q rfl
    simp only [StepState.need] at hneed
    omega
  | lookbackQuote | dispatch | postSwitch =>
    simp only [StepState.need] at hneed
    omega
  | finished => exact absurd rfl hne

theorem noteState_blind (name : String) :
    Blind id unit n (fun _ => True) (noteState frame name) :=
  .command (fun h => h) fun _ => trivial

theorem transition_overlooks (N : (blindness id unit n).Nested ev) {state : StepState}
    (hm : m.LeavesAtMost id n) (hbehind : Behind id n frame state m) :
    Overlooks id unit n (ev.transition frame state) m := by
  by_cases hcall : frame.feed = id ∧ ∃ p, state = .processAction p
  · obtain ⟨hfeed, p, hp⟩ := hcall
    exact .of_fewer hm.size (hbehind hfeed p hp)
  · have htrans : (blindness id unit n).Holds {} (fun r => r.1.Good Facts.all ∧ r.2.Good Facts.all)
        (ev.transition frame state) := by
      refine (blindness id unit n).transition N ((blindness id unit n).calls (blindness_begins id unit n) N)
        (Routes.good_frame frame) (Routes.good_state state) (fun _ _ => ?_) fun p hp => ?_
      · exact Blind.command (c := .peekNext frame.feed) (fun h => h) fun _ => Value.goodMaybe_all _
      · have hother : frame.feed ≠ id := fun hfeed => hcall ⟨hfeed, p, hp⟩
        exact Blind.command (c := .lookback frame.feed) hother fun _ => trivial
    exact Blind.overlooks htrans hm

theorem drive_overlooks (N : (blindness id unit n).Nested ev) {fuel : Nat} {state : StepState}
    (hm : m.LeavesAtMost id n) (hfed : state.Fed m frame.feed)
    (hbehind : Behind id n frame state m) : Overlooks id unit n (ev.drive fuel frame state) m := by
  induction fuel generalizing frame state m with
  | zero => exact .exhaust
  | succ fuel ih =>
    by_cases hfin : state = .finished
    · subst hfin
      rw [drive_finished]
      exact ((noteState_blind _).overlooks hm).bind fun _ _ _ => .ret
    · rw [drive_of_ne hfin]
      refine ((noteState_blind _).overlooks hm).bind fun _ m₁ h₁ => ?_
      have hm₁ := hm.of_run h₁
      obtain ⟨journal, hnote⟩ := noteState_run frame state.name m
      obtain rfl : { m with journal } = m₁ := by
        rw [hnote] at h₁
        exact (Prod.mk.inj h₁).2
      have hfed₁ : state.Fed { m with journal } frame.feed := by cases state <;> exact hfed
      have htrans : Overlooks id unit n (ev.transition frame state) { m with journal } :=
        transition_overlooks N hm₁ hbehind
      refine htrans.catchSignal.bind fun r m₂ h₂ => ?_
      have hm₂ := hm₁.of_run h₂
      rcases Eval.catchSignal_eq_done h₂ with ⟨⟨frame₂, state₂⟩, rfl, ht⟩ | ⟨s, rfl, -⟩
      · obtain ⟨hsame, hfollows⟩ := transition_follows hfed₁ hfin ht
        exact ih hm₂ (hsame ▸ hfollows.fed) (behind_of_transition hm₁ hbehind hfed₁ hfin ht)
      · exact ((noteState_blind "thrown").overlooks hm₂).bind fun _ _ _ => .ret

theorem evalStep_blind (N : (blindness id unit n).Nested ev) :
    Blind id unit n (fun _ => True) (ev.evalStep frame) := by
  refine .bind (.of_holds (blindness id unit n).takeNoLookahead) fun noLookahead _ => ?_
  refine .bind (P := fun _ => True) (.command (fun h => h) fun _ => trivial) fun s? _ => ?_
  cases s? with
  | some s => exact .ret trivial
  | none =>
    refine .bind (P := fun _ => True) (.command (fun h => h) fun _ => trivial) fun units _ => ?_
    exact ⟨fun _ _ _ _ => trivial, fun hm => drive_overlooks N hm trivial (by rintro - _ ⟨⟩)⟩

/-! ### Many steps -/

section

variable (hsteps : ∀ frame, Blind id unit n (fun _ => True) (ev.step frame))
include hsteps

theorem step_blind {α : Type} {Q : α → Prop} {next : Frame → Eval α}
    (hnext : ∀ frame, Blind id unit n Q (next frame)) :
    Blind id unit n Q (ev.step frame >>= fun stepped => stepped.frameOrThrow >>= next) := by
  refine .bind (hsteps frame) fun stepped _ => ?_
  unfold Stepped.frameOrThrow
  cases stepped.signal with
  | some s => exact .bind (P := fun _ => True) .signal fun frame _ => hnext frame
  | none => exact .bind (P := fun _ => True) (.ret trivial) fun frame _ => hnext frame

theorem stepToEnd_blind {fuel : Nat} :
    Blind id unit n (fun _ => True) (ev.stepToEnd fuel frame) := by
  induction fuel generalizing frame with
  | zero =>
    refine .bind (.of_holds (blindness id unit n).atEnd) fun ended _ => ?_
    split
    · exact .ret trivial
    · exact .exhaust
  | succ fuel ih =>
    refine .bind (.of_holds (blindness id unit n).atEnd) fun ended _ => ?_
    split
    · exact .ret trivial
    · exact step_blind hsteps fun _ => ih

theorem collect_blind {fuel : Nat} {feed : FeedId} {values : List Value} :
    Blind id unit n (fun _ => True) (reduceUnits.collect ev feed fuel frame values) := by
  induction fuel generalizing frame values with
  | zero =>
    refine .bind (.of_holds (blindness id unit n).atEnd) fun ended _ => ?_
    split
    · exact .ret trivial
    · exact .exhaust
  | succ fuel ih =>
    refine .bind (.of_holds (blindness id unit n).atEnd) fun ended _ => ?_
    split
    · exact .ret trivial
    · refine step_blind hsteps fun frame' => ?_
      split
      · exact ih
      · exact ih

theorem stepToVisible_blind {fuel : Nat} {suppressed : Bool} :
    Blind id unit n (fun _ => True) (ev.stepToVisible suppressed fuel frame) := by
  induction fuel generalizing frame with
  | zero => exact .exhaust
  | succ fuel ih =>
    refine .bind (.of_holds ((blindness id unit n).onlyIf
      (fun _ => (blindness id unit n).setNoLookahead) fun _ => trivial)) fun _ _ => ?_
    refine .bind (hsteps frame) fun stepped _ => ?_
    split
    · exact .ret trivial
    · refine .bind (.of_holds (blindness id unit n).atArgumentEnd) fun ended _ => ?_
      split
      · exact .ret trivial
      · exact ih

theorem evalExpression_blind (feed : FeedId) (fulfilling : Bool) :
    Blind id unit n (fun _ => True) (ev.evalExpression feed fulfilling) := by
  refine .inFrame fun frame => ?_
  refine .bind (P := fun _ => True) ?_ fun stepped _ => ?_
  · refine .bind (.of_holds (blindness id unit n).takeNoLookahead) fun suppressed _ => ?_
    refine .bind (P := fun _ => True) (.command (fun h => h) fun _ => trivial) fun units _ => ?_
    exact stepToVisible_blind hsteps
  · unfold Stepped.frameOrThrow
    cases stepped.signal with
    | some s => exact .signal
    | none => exact .ret trivial

theorem runUnits_blind (items : List Value) (scope : ScopeId) :
    Blind id unit n (fun _ => True) (ev.runUnits items scope) := by
  refine .bind (.of_holds ((blindness id unit n).newFeed (Value.goodAll_all items))) fun feed _ => ?_
  refine .inFrame fun frame => ?_
  refine .bind (P := fun _ => True) (.command (fun h => h) fun _ => trivial) fun units _ => ?_
  exact .bind (stepToEnd_blind hsteps) fun _ _ => .ret trivial

theorem reduceUnits_blind (items : List Value) (scope : ScopeId) :
    Blind id unit n (fun _ => True) (ev.reduceUnits items scope) := by
  refine .bind (.of_holds ((blindness id unit n).newFeed (Value.goodAll_all items))) fun feed _ => ?_
  exact .inFrame fun frame => collect_blind hsteps

theorem nested_blind : (blindness id unit n).Nested ev where
  runUnits _ := ⟨fun _ _ _ _ => Value.goodMaybe_all _, (runUnits_blind hsteps _ _).overlooks⟩
  evalExpression :=
    ⟨fun _ _ _ _ => Value.goodMaybe_all _, (evalExpression_blind hsteps _ _).overlooks⟩
  reduceUnits _ := ⟨fun _ _ _ _ => Value.goodAll_all _, (reduceUnits_blind hsteps _ _).overlooks⟩

end

end Evaluator

theorem stepWithin_blind (id : FeedId) (unit : Value) (n patience nesting : Nat) (frame : Frame) :
    Blind id unit n (fun _ => True) (stepWithin patience nesting frame) := by
  induction nesting generalizing frame with
  | zero => exact .exhaust
  | succ nesting ih =>
    exact @Evaluator.evalStep_blind ⟨stepWithin patience nesting, patience⟩ _ _ _ _
      (Evaluator.nested_blind ih)

end Homoicon
