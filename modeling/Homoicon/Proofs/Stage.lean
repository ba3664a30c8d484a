import Homoicon.Proofs.Mirror

/-!
# Evaluation on a stage

Code that is evaluated over a feed sees little of the machine: what is left of the feed, the values
of its words, and how many frames are live.  A stage fixes what does not change meanwhile; the values
of words that the code does not use may change.  A run on
a stage is described by its outcome, by the feed it leaves and by how often an action was called by
one name, whatever else the machine holds.
-/

namespace Homoicon

/-- Whether an action is called by a given name. -/
def Moment.calls (name : String) : Moment → Bool
  | .asked (.note (.invoked label _ _)) _ => label == name
  | _ => false

structure Stage where
  feed : FeedId
  scope : ScopeId
  /-- The words whose values stay the same. -/
  known : String → Prop
  names : String → Option Value
  maxDepth : Nat
  /-- How many frames may be live at any moment. -/
  limit : Nat
  /-- The name whose calls are counted. -/
  counted : String

theorem Machine.poll_undisturbed (m : Machine) (hinterrupt : m.interrupt = false)
    (hhook : ∀ ask, m.hook = some ask → ∀ tick, ask tick = false) :
    ∃ countdown polled, m.poll = (none, { m with tick := m.tick + 1, countdown, polled }) := by
  unfold poll
  simp only
  split
  · exact ⟨_, _, rfl⟩
  · cases hask : m.hook with
    | none => simp [hinterrupt]
    | some ask => simp [hinterrupt, hhook ask hask]

namespace Stage

/-- The machine has `depth` live frames and the feed `f`, and nothing asks it to stop. -/
structure Shows (S : Stage) (depth : Nat) (f : Feed) (m : Machine) : Prop where
  depth_eq : m.depth = depth
  depth_le : depth ≤ S.limit
  maxDepth : m.config.maxDepth = S.maxDepth
  interrupt : m.interrupt = false
  hook : ∀ ask, m.hook = some ask → ∀ tick, ask tick = false
  feed_lt : S.feed < m.feeds.size
  feed_eq : m.feed S.feed = f
  scope_eq : f.scope = S.scope
  scope_lt : S.scope < m.scopes.next
  parent_lt : ∀ s p, (m.scopes.scope s).parent = some p → p < s
  lookup_eq : ∀ name, S.known name → m.lookup S.scope name = S.names name

/-- From every machine that shows `f` the evaluation ends as `Q` says of its outcome, of the feed it
leaves and of the number of counted calls, and it stays within the limit. -/
def Runs {α : Type} (S : Stage) (depth : Nat) (f : Feed) (x : Eval α)
    (Q : Outcome α → Feed → Nat → Prop) : Prop :=
  ∀ m, S.Shows depth f m →
    (∃ g, S.Shows depth g (x m).2 ∧
      Q (x m).1 g ((x.trace m).countP (Moment.calls S.counted))) ∧
    ∀ k ∈ x.trace m, k.before.depth ≤ S.limit

/-- The evaluation finds a value with the property `P` and leaves the feed `g`; no call is
counted. -/
def Finds {α : Type} (S : Stage) (depth : Nat) (f : Feed) (x : Eval α) (P : α → Prop) (g : Feed) :
    Prop :=
  S.Runs depth f x fun o g' n => ∃ a, o = .done a ∧ P a ∧ g' = g ∧ n = 0

abbrev Gives {α : Type} (S : Stage) (depth : Nat) (f : Feed) (x : Eval α) (v : α) (g : Feed) :
    Prop :=
  S.Finds depth f x (fun a => a = v) g

/-- What is known of an evaluation that ended without a result is known of the one around it. -/
structure Breaks {α β : Type} (Q : Outcome α → Feed → Nat → Prop)
    (R : Outcome β → Feed → Nat → Prop) : Prop where
  thrown : ∀ s g n, Q (.thrown s) g n → R (.thrown s) g n
  failed : ∀ e g n, Q (.failed e) g n → R (.failed e) g n
  exhausted : ∀ g n, Q .exhausted g n → R .exhausted g n

/-- An outcome with a result satisfies `P`; without one it is what `Q` says. -/
def After {α β : Type} (Q : Outcome α → Feed → Nat → Prop) (P : β → Feed → Nat → Prop) :
    Outcome β → Feed → Nat → Prop
  | .done b, g, n => P b g n
  | .thrown s, g, n => Q (.thrown s) g n
  | .failed e, g, n => Q (.failed e) g n
  | .exhausted, g, n => Q .exhausted g n

theorem Breaks.refl {α : Type} (Q : Outcome α → Feed → Nat → Prop) : Breaks Q Q :=
  ⟨fun _ _ _ h => h, fun _ _ _ h => h, fun _ _ h => h⟩

theorem Breaks.intro {α β : Type} (Q : Outcome α → Feed → Nat → Prop)
    (P : β → Feed → Nat → Prop) : Breaks Q (After Q P) :=
  ⟨fun _ _ _ h => h, fun _ _ _ h => h, fun _ _ h => h⟩

theorem Breaks.after {α β γ : Type} {Q : Outcome α → Feed → Nat → Prop}
    {R : Outcome γ → Feed → Nat → Prop} (h : Breaks Q R) (P : β → Feed → Nat → Prop) :
    Breaks (After Q P) R :=
  ⟨h.thrown, h.failed, h.exhausted⟩

/-- The stage that a machine sets for the code of one of its feeds. -/
def ofMachine (m : Machine) (feed : FeedId) (limit : Nat) (counted : String) : Stage where
  feed := feed
  scope := (m.feed feed).scope
  known _ := True
  names := m.lookup (m.feed feed).scope
  maxDepth := m.config.maxDepth
  limit := limit
  counted := counted

theorem ofMachine_shows {m : Machine} {feed : FeedId} {limit : Nat} (counted : String)
    (hinterrupt : m.interrupt = false)
    (hhook : ∀ ask, m.hook = some ask → ∀ tick, ask tick = false) (hfeed : feed < m.feeds.size)
    (hscope : (m.feed feed).scope < m.scopes.next)
    (hparent : ∀ s p, (m.scopes.scope s).parent = some p → p < s) (hlimit : m.depth ≤ limit) :
    (ofMachine m feed limit counted).Shows m.depth (m.feed feed) m where
  depth_eq := rfl
  depth_le := hlimit
  maxDepth := rfl
  interrupt := hinterrupt
  hook := hhook
  feed_lt := hfeed
  feed_eq := rfl
  scope_eq := rfl
  scope_lt := hscope
  parent_lt := hparent
  lookup_eq _ _ := rfl

variable {S : Stage} {depth : Nat} {f g : Feed} {m m' : Machine} {α β : Type}

namespace Shows

/-- What a machine shows is a matter of its stack, its feeds and scopes and its requests to stop. -/
theorem congr (h : S.Shows depth f m) (hstack : m'.stack = m.stack) (hconfig : m'.config = m.config)
    (hinterrupt : m'.interrupt = m.interrupt) (hhook : m'.hook = m.hook)
    (hfeeds : m'.feeds = m.feeds) (hscopes : m'.scopes = m.scopes) : S.Shows depth f m' where
  depth_eq := by
    rw [Machine.depth, hstack]
    exact h.depth_eq
  depth_le := h.depth_le
  maxDepth := by
    rw [hconfig]
    exact h.maxDepth
  interrupt := hinterrupt.trans h.interrupt
  hook := by
    rw [hhook]
    exact h.hook
  feed_lt := by
    rw [hfeeds]
    exact h.feed_lt
  feed_eq := by
    rw [Machine.feed, hfeeds]
    exact h.feed_eq
  scope_eq := h.scope_eq
  scope_lt := by
    rw [hscopes]
    exact h.scope_lt
  parent_lt := by
    rw [hscopes]
    exact h.parent_lt
  lookup_eq := by
    intro name hknown
    rw [Machine.lookup, hscopes]
    exact h.lookup_eq name hknown

theorem note (h : S.Shows depth f m) (e : Event) : S.Shows depth f (m.note e) := by
  obtain ⟨_, hm⟩ := m.note_eq e
  rw [hm]
  exact h.congr rfl rfl rfl rfl rfl rfl

theorem updateFeed (h : S.Shows depth f m) {set : Feed → Feed} (hscope : (set f).scope = f.scope) :
    S.Shows depth (set f) (m.updateFeed S.feed set) where
  depth_eq := h.depth_eq
  depth_le := h.depth_le
  maxDepth := h.maxDepth
  interrupt := h.interrupt
  hook := h.hook
  feed_lt := by
    rw [Machine.updateFeed, Array.size_modify]
    exact h.feed_lt
  feed_eq := by
    rw [Machine.feed_updateFeed, if_pos ⟨rfl, h.feed_lt⟩, h.feed_eq]
  scope_eq := hscope.trans h.scope_eq
  scope_lt := h.scope_lt
  parent_lt := h.parent_lt
  lookup_eq := h.lookup_eq

theorem poll (h : S.Shows depth f m) : m.poll.1 = none ∧ S.Shows depth f m.poll.2 := by
  obtain ⟨_, _, hm⟩ := m.poll_undisturbed h.interrupt h.hook
  rw [hm]
  exact ⟨rfl, h.congr rfl rfl rfl rfl rfl rfl⟩

theorem enter (h : S.Shows depth f m) (hlimit : depth + 1 ≤ S.limit) (label : Option String) :
    S.Shows (depth + 1) f (m.enter label) where
  depth_eq := by
    show m.stack.length + 1 = depth + 1
    rw [← h.depth_eq]
    rfl
  depth_le := hlimit
  maxDepth := h.maxDepth
  interrupt := h.interrupt
  hook := h.hook
  feed_lt := h.feed_lt
  feed_eq := h.feed_eq
  scope_eq := h.scope_eq
  scope_lt := h.scope_lt
  parent_lt := h.parent_lt
  lookup_eq := h.lookup_eq

theorem leave (h : S.Shows depth f m) (hg : S.Shows (depth + 1) g m') {id : FrameId}
    {label : Option String} (hstack : m'.stack = ⟨id, label⟩ :: m.stack) :
    S.Shows depth g (m'.leave id) where
  depth_eq := by
    rw [Machine.depth, Machine.stack_leave hstack]
    exact h.depth_eq
  depth_le := h.depth_le
  maxDepth := hg.maxDepth
  interrupt := hg.interrupt
  hook := hg.hook
  feed_lt := hg.feed_lt
  feed_eq := hg.feed_eq
  scope_eq := hg.scope_eq
  scope_lt := hg.scope_lt
  parent_lt := hg.parent_lt
  lookup_eq := hg.lookup_eq

end Shows

/-! ### Putting runs together -/

namespace Runs

variable {x : Eval α} {h : α → Eval β} {Q R : Outcome α → Feed → Nat → Prop}

theorem mono (hx : S.Runs depth f x Q) (hQ : ∀ o g n, Q o g n → R o g n) : S.Runs depth f x R := by
  intro m hm
  obtain ⟨⟨g, hg, hq⟩, hdepth⟩ := hx m hm
  exact ⟨⟨g, hg, hQ _ _ _ hq⟩, hdepth⟩

theorem pure {a : α} (hQ : Q (.done a) f 0) : S.Runs depth f (Pure.pure a) Q := by
  intro m hm
  refine ⟨⟨f, hm, hQ⟩, ?_⟩
  intro k hk
  cases hk

theorem fail {e : Fault} (hQ : Q (.failed e) f 0) : S.Runs depth f (.fail e) Q := by
  intro m hm
  refine ⟨⟨f, hm, hQ⟩, ?_⟩
  intro k hk
  rw [List.mem_singleton.1 hk]
  show m.depth ≤ S.limit
  rw [hm.depth_eq]
  exact hm.depth_le

theorem signal {s : Signal} (hQ : Q (.thrown s) f 0) : S.Runs depth f (.signal s) Q := by
  intro m hm
  refine ⟨⟨f, hm, hQ⟩, ?_⟩
  intro k hk
  rw [List.mem_singleton.1 hk]
  show m.depth ≤ S.limit
  rw [hm.depth_eq]
  exact hm.depth_le

theorem bind {R : Outcome β → Feed → Nat → Prop} (hx : S.Runs depth f x Q)
    (hbreaks : Breaks Q R)
    (hdone : ∀ a g n, Q (.done a) g n → S.Runs depth g (h a) fun o g' n' => R o g' (n + n')) :
    S.Runs depth f (x >>= h) R := by
  intro m hm
  obtain ⟨⟨g, hg, hq⟩, hdepth⟩ := hx m hm
  rw [Eval.run_bind, Eval.trace_bind]
  rcases hrun : x m with ⟨a | s | e | _, m'⟩ <;> rw [hrun] at hg hq
  · obtain ⟨⟨g', hg', hr⟩, hdepth'⟩ := hdone a g _ hq m' hg
    refine ⟨⟨g', hg', ?_⟩, ?_⟩
    · rw [List.countP_append]
      exact hr
    · intro k hk
      rcases List.mem_append.1 hk with hk | hk
      · exact hdepth k hk
      · exact hdepth' k hk
  · simp only [List.append_nil]
    exact ⟨⟨g, hg, hbreaks.thrown s g _ hq⟩, hdepth⟩
  · simp only [List.append_nil]
    exact ⟨⟨g, hg, hbreaks.failed e g _ hq⟩, hdepth⟩
  · simp only [List.append_nil]
    exact ⟨⟨g, hg, hbreaks.exhausted g _ hq⟩, hdepth⟩

theorem command {c : Command β} {Q : Outcome β → Feed → Nat → Prop}
    (hc : ∀ m, S.Shows depth f m → ∃ g, S.Shows depth g (c.run m).2 ∧
      Q (.done (c.run m).1) g (if (Moment.asked c m).calls S.counted then 1 else 0)) :
    S.Runs depth f (Eval.command c) Q := by
  intro m hm
  obtain ⟨g, hg, hq⟩ := hc m hm
  refine ⟨⟨g, hg, ?_⟩, ?_⟩
  · rw [Eval.trace_command, List.countP_singleton]
    exact hq
  · intro k hk
    rw [List.mem_singleton.1 hk]
    show m.depth ≤ S.limit
    rw [hm.depth_eq]
    exact hm.depth_le

theorem catchSignal {R : Outcome (Except Signal α) → Feed → Nat → Prop} (hx : S.Runs depth f x Q)
    (hR : ∀ o g n, Q o g n → R o.seeSignal g n) : S.Runs depth f x.catchSignal R := by
  intro m hm
  rw [Eval.run_catchSignal, Eval.trace_catchSignal]
  obtain ⟨⟨g, hg, hq⟩, hdepth⟩ := hx m hm
  exact ⟨⟨g, hg, hR _ _ _ hq⟩, hdepth⟩

theorem catchFault {R : Outcome (Except Fault α) → Feed → Nat → Prop} (hx : S.Runs depth f x Q)
    (hR : ∀ o g n, Q o g n → R o.seeFault g n) : S.Runs depth f x.catchFault R := by
  intro m hm
  rw [Eval.run_catchFault, Eval.trace_catchFault]
  obtain ⟨⟨g, hg, hq⟩, hdepth⟩ := hx m hm
  exact ⟨⟨g, hg, hR _ _ _ hq⟩, hdepth⟩

theorem withFrame {label : Option String} {body : Frame → Eval α} (hroom : depth < S.maxDepth)
    (hlimit : depth + 1 ≤ S.limit)
    (hbody : ∀ id, S.Runs (depth + 1) f (body { id, feed := S.feed })
      fun o g n => R (o.leave label) g n) :
    S.Runs depth f (withFrame S.feed label body) R := by
  intro m hm
  have hfree : m.depth < m.config.maxDepth := by
    rw [hm.depth_eq, hm.maxDepth]
    exact hroom
  have hstack := (body { id := m.nextFrame, feed := S.feed }).run_stack (m.enter label)
  obtain ⟨⟨g, hg, hr⟩, hdepth⟩ := hbody m.nextFrame _ (hm.enter hlimit label)
  rw [withFrame_entered _ _ _ hfree]
  unfold Homoicon.withFrame
  rw [Eval.run_inFrame (Nat.not_le.2 hfree)]
  refine ⟨⟨g, hm.leave hg hstack, ?_⟩, ?_⟩
  · rw [List.cons_append, List.countP_cons_of_neg (by simp [Moment.calls]), List.countP_append,
      List.countP_singleton]
    exact hr
  · intro k hk
    rcases List.mem_append.1 hk with hk | hk
    · rcases List.mem_cons.1 hk with rfl | hk
      · show m.depth ≤ S.limit
        rw [hm.depth_eq]
        exact hm.depth_le
      · exact hdepth k hk
    · rw [List.mem_singleton.1 hk]
      exact hg.depth_eq.symm ▸ hlimit

end Runs

theorem Finds.andThen {x : Eval α} {h : α → Eval β} {P : α → Prop}
    {R : Outcome β → Feed → Nat → Prop} (hx : S.Finds depth f x P g)
    (hh : ∀ a, P a → S.Runs depth g (h a) R) : S.Runs depth f (x >>= h) R := by
  apply Runs.bind hx
  · constructor
    · rintro s g' n ⟨_, hs, -⟩
      cases hs
    · rintro e g' n ⟨_, he, -⟩
      cases he
    · rintro g' n ⟨_, he, -⟩
      cases he
  · rintro a g' n ⟨_, ha, hP, rfl, rfl⟩
    cases ha
    simpa using hh a hP

namespace Gives

variable {x : Eval α} {h : α → Eval β} {v : α} {R : Outcome β → Feed → Nat → Prop}

theorem pure (v : α) : S.Gives depth f (Pure.pure v) v f := Runs.pure ⟨v, rfl, rfl, rfl, rfl⟩

theorem andThen (hx : S.Gives depth f x v g) (hh : S.Runs depth g (h v) R) :
    S.Runs depth f (x >>= h) R := by
  apply Finds.andThen hx
  rintro _ rfl
  exact hh

theorem silently {c : Command β} (hc : ∀ m, (Moment.asked c m).calls S.counted = false) {v : β}
    (hrun : ∀ m, S.Shows depth f m → (c.run m).1 = v ∧ S.Shows depth g (c.run m).2) :
    S.Gives depth f (Eval.command c) v g := by
  apply Runs.command
  intro m hm
  obtain ⟨hv, hg⟩ := hrun m hm
  refine ⟨g, hg, v, by rw [hv], rfl, rfl, ?_⟩
  rw [hc m]
  rfl

theorem reads {c : Command β} (get : Feed → β) (hrun : ∀ m, c.run m = (get (m.feed S.feed), m))
    (hc : ∀ m, (Moment.asked c m).calls S.counted = false) :
    S.Gives depth f (Eval.command c) (get f) f := by
  apply silently hc
  intro m hm
  rw [hrun m, hm.feed_eq]
  exact ⟨rfl, hm⟩

theorem changes {c : Command Unit} (set : Feed → Feed)
    (hrun : ∀ m, c.run m = ((), m.updateFeed S.feed set)) (hscope : (set f).scope = f.scope)
    (hc : ∀ m, (Moment.asked c m).calls S.counted = false) :
    S.Gives depth f (Eval.command c) () (set f) := by
  apply silently hc
  intro m hm
  rw [hrun m]
  exact ⟨rfl, hm.updateFeed hscope⟩

theorem peek : S.Gives depth f (Eval.peek S.feed) f.peek f :=
  reads Feed.peek (fun _ => rfl) fun _ => rfl

theorem peekNext : S.Gives depth f (Eval.command (.peekNext S.feed)) f.peekNext f :=
  reads Feed.peekNext (fun _ => rfl) fun _ => rfl

theorem lookback : S.Gives depth f (Eval.command (.lookback S.feed)) f.lookback f :=
  reads Feed.lookback (fun _ => rfl) fun _ => rfl

theorem unitsLeft : S.Gives depth f (Eval.unitsLeft S.feed) f.units.length f :=
  reads (fun f => f.units.length) (fun _ => rfl) fun _ => rfl

theorem deferring : S.Gives depth f (Eval.deferring S.feed) f.deferring f :=
  reads Feed.deferring (fun _ => rfl) fun _ => rfl

theorem setDeferring (b : Bool) :
    S.Gives depth f (Eval.setDeferring S.feed b) () { f with deferring := b } :=
  changes (fun f => { f with deferring := b }) (fun _ => rfl) rfl fun _ => rfl

theorem setNoLookahead :
    S.Gives depth f (Eval.setNoLookahead S.feed) () { f with noLookahead := true } :=
  changes (fun f => { f with noLookahead := true }) (fun _ => rfl) rfl fun _ => rfl

theorem advance : S.Gives depth f (Eval.advance S.feed) () f.advance := by
  apply changes Feed.advance (fun _ => rfl) _ fun _ => rfl
  unfold Feed.advance
  split <;> rfl

theorem takeNoLookahead :
    S.Gives depth f (Eval.takeNoLookahead S.feed) f.noLookahead { f with noLookahead := false } := by
  have hread : S.Gives depth f (Eval.command (.noLookahead S.feed)) f.noLookahead f :=
    reads Feed.noLookahead (fun _ => rfl) fun _ => rfl
  have hset : S.Gives depth f (Eval.command (.setNoLookahead S.feed false)) ()
      { f with noLookahead := false } :=
    changes (fun f => { f with noLookahead := false }) (fun _ => rfl) rfl fun _ => rfl
  exact hread.andThen (hset.andThen (Gives.pure _))

theorem poll : S.Gives depth f Eval.poll none f :=
  silently (fun _ => rfl) fun _ hm => hm.poll

theorem noteState (frame : Frame) (name : String) :
    S.Gives depth f (Evaluator.noteState frame name) () f := by
  apply silently (fun _ => rfl)
  intro m hm
  refine ⟨rfl, ?_⟩
  simp only [Command.run]
  split
  · exact hm.note _
  · exact hm

theorem note {e : Event} (he : ∀ m, (Moment.asked (.note e) m).calls S.counted = false) :
    S.Gives depth f (Eval.note e) () f :=
  silently he fun _ hm => ⟨rfl, hm.note e⟩

theorem mark (k : Mark) : S.Gives depth f (Eval.command (.mark k)) () f :=
  silently (fun _ => rfl) fun _ hm => ⟨rfl, hm⟩

theorem atArgumentEnd : S.Gives depth f (Eval.atArgumentEnd S.feed) f.atArgumentEnd f := by
  apply peek.andThen
  unfold Feed.peek Feed.atArgumentEnd Feed.isEnd Feed.atBarrier
  cases f.units with
  | nil => exact Gives.pure true
  | cons unit rest => cases unit <;> exact Gives.pure _

/-- Numbers that were not handed out before are found, but which they are does not show. -/
theorem freshIdentity : S.Finds depth f Eval.freshIdentity (fun _ => True) f := by
  apply Runs.command
  intro m hm
  exact ⟨f, hm.congr rfl rfl rfl rfl rfl rfl, _, rfl, trivial, rfl, rfl⟩

end Gives

theorem Runs.mapFault {x : Eval α} {handler : Fault → Eval Fault}
    {Q R : Outcome α → Feed → Nat → Prop} (hx : S.Runs depth f x Q) (place : Feed → Fault → Fault)
    (hplace : ∀ g e, S.Gives depth g (handler e) (place g e) g)
    (hfailed : ∀ e g n, Q (.failed e) g n → R (.failed (place g e)) g n)
    (hothers : ∀ o g n, (∀ e, o ≠ .failed e) → Q o g n → R o g n) :
    S.Runs depth f (x.mapFault handler) R := by
  have hseen : S.Runs depth f x.catchFault fun o g n => ∃ o', Q o' g n ∧ o = o'.seeFault :=
    hx.catchFault fun o g n hq => ⟨o, hq, rfl⟩
  apply hseen.bind
  · refine ⟨?_, ?_, ?_⟩
    · rintro s g n ⟨o, hq, ho⟩
      cases o <;> cases ho
      exact hothers _ g n (by simp) hq
    · rintro e g n ⟨o, hq, ho⟩
      cases o <;> cases ho
    · rintro g n ⟨o, hq, ho⟩
      cases o <;> cases ho
      exact hothers _ g n (by simp) hq
  · rintro r g n ⟨o, hq, ho⟩
    cases o with
    | done v =>
      cases ho
      exact Runs.pure (hothers _ g n (by simp) hq)
    | failed e =>
      cases ho
      apply (hplace g e).andThen
      exact Runs.fail (Q := fun o g' k => R o g' (n + k)) (hfailed e g n hq)
    | thrown s => cases ho
    | exhausted => cases ho

def action? (S : Stage) : Option Value → Option (String × Action)
  | some (.word name) =>
    match S.names name with
    | some (.action _ a) => some (name, a)
    | _ => none
  | _ => none

def Knows (S : Stage) : Option Value → Prop
  | some (.word name) => S.known name
  | _ => True

theorem Gives.lookupWord {name : String} (hknown : S.known name) {x : Option Value → Eval α}
    {R : Outcome α → Feed → Nat → Prop} (h : S.Runs depth f (x (S.names name)) R) :
    S.Runs depth f (Eval.scopeOf S.feed >>= fun scope => Eval.lookup scope name >>= x) R := by
  have hscope : S.Gives depth f (Eval.scopeOf S.feed) f.scope f :=
    reads Feed.scope (fun _ => rfl) fun _ => rfl
  have hlookup : S.Gives depth f (Eval.lookup f.scope name) (S.names name) f := by
    apply silently (fun _ => rfl)
    intro m hm
    refine ⟨?_, hm⟩
    rw [hm.scope_eq]
    exact hm.lookup_eq name hknown
  exact hscope.andThen (hlookup.andThen h)

theorem Gives.wordAction? {unit? : Option Value} (hknown : S.Knows unit?) :
    S.Gives depth f (Homoicon.wordAction? S.feed unit?) (S.action? unit?) f := by
  cases unit? with
  | none => exact .pure _
  | some unit =>
    cases unit with
    | word name =>
      apply Gives.lookupWord hknown
      simp only [Stage.action?]
      cases S.names name with
      | none => exact Gives.pure _
      | some v => cases v <;> exact Gives.pure _
    | _ => exact .pure _

theorem Finds.returnAction (id : FrameId) :
    S.Finds depth f (Evaluator.returnAction id) (fun _ => True) f := by
  apply Finds.andThen Gives.freshIdentity
  intro signature _
  apply Finds.andThen Gives.freshIdentity
  intro identity _
  exact Runs.pure ⟨_, rfl, trivial, rfl, rfl⟩

theorem Gives.resolve {name : String} {v : Value} (hknown : S.known name)
    (hname : S.names name = some v) (hv : v ≠ .void) : S.Gives depth f (Eval.resolve S.feed name) v f := by
  have hget : S.Gives depth f (Eval.resolveGet S.feed name) v f := by
    apply Gives.lookupWord hknown
    rw [hname]
    exact Gives.pure v
  apply hget.andThen
  cases v with
  | void => exact absurd rfl hv
  | _ => exact Gives.pure _

end Stage

end Homoicon
