import Homoicon.Proofs.Deferral
import Homoicon.Proofs.Requests

/-!
# Refinements in any order

A path whose head names an action is a call with the refinements that its other segments name.  In
whichever order they stand there, the step that evaluates the path, and all that is evaluated after
it, goes alike.
-/

namespace Homoicon

namespace Respelling

variable {S : Respelling} {m : Machine} {f : Feed}

theorem inFeed_eq (S : Respelling) (f : Feed) :
    ∃ units lookback, S.inFeed f = { f with units, lookback } := by
  unfold inFeed
  split
  · exact ⟨_, f.lookback, rfl⟩
  · obtain ⟨lookback, h⟩ := f.relook_eq S.unit S.rest.length
    exact ⟨f.units, lookback, h⟩

theorem machine_feed_eq (S : Respelling) (m : Machine) (j : FeedId) :
    ∃ units lookback, (S.machine m).feed j = { m.feed j with units, lookback } := by
  rw [machine, Machine.feed_updateFeed]
  split
  · exact S.inFeed_eq _
  · exact ⟨_, _, rfl⟩

theorem machine_setNoLookahead (S : Respelling) (m : Machine) (j : FeedId) (b : Bool) :
    (S.machine m).updateFeed j (fun f => { f with noLookahead := b }) =
      S.machine (m.updateFeed j fun f => { f with noLookahead := b }) := by
  by_cases hj : S.feed = j
  · subst hj
    rw [machine, machine, Machine.updateFeed_updateFeed, Machine.updateFeed_updateFeed]
    refine Machine.updateFeed_congr ?_
    generalize m.feed S.feed = f
    simp only [inFeed, Feed.relook]
    split
    · rfl
    · split <;> rfl
  · exact Machine.updateFeed_comm m S.feed hj

/-! ### Looking at the unit before it is evaluated -/

/-- The unit stands at the front of its feed, as `unit` spells it. -/
def Faces (S : Respelling) (unit : Value) (m : Machine) : Prop :=
  (m.feed S.feed).units = unit :: S.rest

variable {unit : Value}

theorem Faces.size (h : S.Faces unit m) : S.feed < m.feeds.size :=
  Machine.lt_size_of_units (by rw [Machine.units, h]; exact Nat.succ_pos _)

theorem Faces.machine (h : S.Faces unit m) :
    (S.machine m).feed S.feed = { m.feed S.feed with units := S.unit :: S.rest } := by
  have hlength : (m.feed S.feed).units.length = S.rest.length + 1 := by rw [h, List.length_cons]
  rw [Respelling.machine, Machine.feed_updateFeed, if_pos ⟨rfl, h.size⟩, inFeed, if_pos hlength]

theorem Faces.other (h : S.Faces unit m) : S.Faces S.unit (S.machine m) := by
  rw [Faces, h.machine]

/-- A unit that is consumed is forgotten but for the memory of it. -/
theorem Faces.advance (h : S.Faces unit m) :
    (S.machine m).updateFeed S.feed Feed.advance =
      S.machine (m.updateFeed S.feed Feed.advance) := by
  have hlength : (m.feed S.feed).units.length = S.rest.length + 1 := by rw [h, List.length_cons]
  rw [Respelling.machine, Respelling.machine, Machine.updateFeed_updateFeed,
    Machine.updateFeed_updateFeed]
  refine Machine.updateFeed_congr ?_
  have hunits : (m.feed S.feed).units = unit :: S.rest := h
  simp [inFeed, Feed.relook, Feed.advance, hunits]

theorem Faces.consumed (h : S.Faces unit m) : S.Consumed (m.updateFeed S.feed Feed.advance) := by
  refine ⟨by simpa [Machine.updateFeed] using h.size, ?_⟩
  rw [m.units_advance, Machine.units, h]
  exact Nat.le_refl _

namespace Agree

theorem noLookahead (j : FeedId) :
    S.Agree Eq (Eval.takeNoLookahead j) (Eval.takeNoLookahead j) m := by
  obtain ⟨units, lookback, hfeed⟩ := S.machine_feed_eq m j
  have hlook : (m.feed j).noLookahead = ((S.machine m).feed j).noLookahead := by rw [hfeed]
  refine (command (c := .noLookahead j) (R := Eq) hlook rfl).bind fun b b' m' _ hb => ?_
  subst hb
  have hset : ((Command.setNoLookahead j false).run (S.machine m')).2 =
      S.machine ((Command.setNoLookahead j false).run m').2 := machine_setNoLookahead S m' j false
  exact (command (R := fun _ _ => True) trivial hset).bind fun _ _ _ _ _ => .ret rfl

theorem poll : S.Agree Eq Eval.poll Eval.poll m := by
  have hpoll : (Command.poll).run (S.machine m) = (m.poll.1, S.machine m.poll.2) :=
    m.updateFeed_poll S.feed S.inFeed
  exact command (by rw [hpoll]; rfl) (by rw [hpoll]; rfl)

theorem noteState {frame : Frame} (name : String) :
    S.Agree (fun _ _ => True) (Evaluator.noteState frame name) (Evaluator.noteState frame name)
      m := by
  have hnote := m.updateFeed_noteState S.feed S.inFeed frame.id name
  exact command (c := .noteState frame.id name) trivial (congrArg Prod.snd hnote)

theorem scopeOf (j : FeedId) : S.Agree Eq (Eval.scopeOf j) (Eval.scopeOf j) m := by
  obtain ⟨units, lookback, hfeed⟩ := S.machine_feed_eq m j
  have hlook : (m.feed j).scope = ((S.machine m).feed j).scope := by rw [hfeed]
  exact command (c := .scopeOf j) hlook rfl

theorem wordAction? (unit? : Option Value) :
    S.Agree Eq (Homoicon.wordAction? S.feed unit?) (Homoicon.wordAction? S.feed unit?) m := by
  unfold Homoicon.wordAction?
  split
  · refine (scopeOf S.feed).bind fun scope scope' m₁ _ hscope => ?_
    subst hscope
    refine (command (c := .lookup scope _) (R := Eq) rfl rfl).bind fun v? v?' _ _ hv => ?_
    subst hv
    split <;> exact .ret rfl
  · exact .ret rfl

end Agree

end Respelling

namespace Evaluator

open Respelling

variable {S : Respelling} {m : Machine} {ev : Evaluator} {frame : Frame} {fuel : Nat}

/-! ### One state after another -/

/-- Two steps in states of the same name go alike if their transitions do, and all that follows. -/
theorem drive_agree {state state' : StepState}
    {R : Frame × StepState → Frame × StepState → Prop} (hne : state ≠ .finished)
    (hne' : state' ≠ .finished) (hname : state'.name = state.name)
    (htrans : ∀ journal, S.Agree R (ev.transition frame state) (ev.transition frame state')
      { m with journal })
    (hnext : ∀ journal r r' m', ev.transition frame state { m with journal } = (.done r, m') →
      R r r' → S.Agree Eq (ev.drive fuel r.1 r.2) (ev.drive fuel r'.1 r'.2) m') :
    S.Agree Eq (ev.drive (fuel + 1) frame state) (ev.drive (fuel + 1) frame state') m := by
  rw [drive_of_ne hne, drive_of_ne hne', hname]
  refine (Agree.noteState _).bind fun _ _ m₁ h₁ _ => ?_
  obtain ⟨journal, hnote⟩ := noteState_run frame state.name m
  obtain rfl : { m with journal } = m₁ := by
    rw [hnote] at h₁
    exact (Prod.mk.inj h₁).2
  refine (htrans journal).catchSignal.bind fun r r' m₂ h₂ hr => ?_
  rcases Eval.catchSignal_eq_done h₂ with ⟨r, rfl, ht⟩ | ⟨s, rfl, -⟩
  · cases r' with
    | ok r' => exact hnext journal r r' m₂ ht hr
    | error s' => exact hr.elim
  · cases r' with
    | ok r' => exact hr.elim
    | error s' =>
      obtain rfl : s' = s := hr
      exact (Agree.noteState "thrown").bind fun _ _ _ _ _ => .ret rfl

theorem drive_consumed_agree (N : S.logic.Nested ev)
    {state : StepState} (hm : S.Consumed m) (hfed : state.Fed m frame.feed)
    (hcall : ∀ p, state ≠ .processAction p) :
    S.Agree Eq (ev.drive fuel frame state) (ev.drive fuel frame state) m :=
  .of_overlooks hm (drive_overlooks N hm hfed fun _ p hp => absurd hp (hcall p))

theorem drive_call_agree (N : S.logic.Nested ev)
    {q q' : PendingCall} (hfeed : frame.feed = S.feed) (hm : S.Consumed m) (h : q.Reordered q') :
    S.Agree Eq (ev.drive fuel frame (.processAction q)) (ev.drive fuel frame (.processAction q'))
      m := by
  cases fuel with
  | zero => exact .exhaust
  | succ fuel =>
    have hn : ∀ journal, S.Consumed { m with journal } := fun _ => ⟨hm.size, hm.units_le⟩
    refine drive_agree (R := fun r r' => r = r' ∧ r'.2 = .postSwitch) (by simp) (by simp) rfl
      (fun journal => ?_) fun journal r r' m' hrun hr => ?_
    · show S.Agree _ (ev.invoke frame.feed q >>= _) (ev.invoke frame.feed q' >>= _) _
      rw [hfeed]
      refine (invoke_agree N (hn journal) h).bind fun v v' _ _ hv => ?_
      subst hv
      cases v <;> exact .ret ⟨rfl, rfl⟩
    · obtain ⟨rfl, hstate⟩ := hr
      obtain ⟨frame', state'⟩ := r
      obtain rfl : state' = .postSwitch := hstate
      obtain ⟨hsame, hfollows⟩ := transition_follows (hfeed ▸ hm.size) (by simp) hrun
      exact drive_consumed_agree N ((hn journal).of_run hrun) (hsame ▸ hfollows.fed) (by simp)

def callPath (head : String) (names : List String) : Value :=
  .path (.word head :: names.map Value.word)

/-- The path stands at the front of its feed, and its head names the action. -/
structure Calls (S : Respelling) (head : String) (names : List String) (a : Action) (m : Machine) :
    Prop where
  faces : S.Faces (callPath head names) m
  bound : ∃ identity, m.lookup (m.feed S.feed).scope head = some (.action identity a)

/-- The unit behind the path does not take it on as it stands, so that it is evaluated. -/
def Unclaimed (S : Respelling) (head : String) (names : List String) (m : Machine) : Prop :=
  claimOf m S.feed (callPath head names) S.rest.head? = none

theorem requestsOf_words {feed : FeedId} {found names : List String} (h : (found ++ names).Nodup) :
    ev.requestsOf feed found (names.map Value.word) = pure (found ++ names) := by
  induction names generalizing found with
  | nil => rw [List.append_nil]; rfl
  | cons name rest ih =>
    have hnew : name ∉ found := fun hmem => (List.nodup_append.1 h).2.2 _ hmem _ (by simp) rfl
    rw [List.map_cons]
    show (if found.contains name = true then _ else ev.requestsOf feed (found ++ [name]) _) = _
    rw [if_neg (by simpa using hnew), ih (by simpa using h), List.append_assoc]
    rfl

theorem evalPath_agree {head : String} {names names' : List String} {a : Action}
    {identity : Identity} (hm : S.Consumed m)
    (hbound : m.lookup (m.feed S.feed).scope head = some (.action identity a))
    (hnames : names.Nodup) (hnames' : names'.Nodup) :
    S.Agree (fun r r' => r = .call { action := a, label := head, requests := names } ∧
        r' = .call { action := a, label := head, requests := names' })
      (ev.evalPath S.feed (.word head :: names.map Value.word) true)
      (ev.evalPath S.feed (.word head :: names'.map Value.word) true) m := by
  have hresolve : S.logic.Holds {} (Value.Good Facts.all)
      (Eval.resolve S.feed head) := S.logic.resolve
  have hhead : S.Agree (fun v v' => v = (.action identity a, head) ∧ v' = v)
      (ev.pathHead S.feed (.word head :: names.map Value.word) (.word head))
      (ev.pathHead S.feed (.word head :: names'.map Value.word) (.word head)) m := by
    refine (Agree.of_blind hm hresolve).bind fun v v' _ hrun hv => ?_
    rw [resolve_action hbound] at hrun
    cases hrun
    subst hv
    exact .ret ⟨rfl, rfl⟩
  refine hhead.bind fun v v' _ _ hv => ?_
  obtain ⟨rfl, rfl⟩ := hv
  dsimp only
  rw [requestsOf_words (by simpa using hnames), requestsOf_words (by simpa using hnames')]
  exact .ret ⟨rfl, rfl⟩

theorem Calls.journal {head : String} {names : List String} {a : Action}
    (h : Calls S head names a m) (journal : Array Event) : Calls S head names a { m with journal } :=
  ⟨h.faces, h.bound⟩

theorem Calls.setNoLookahead {head : String} {names : List String} {a : Action}
    (h : Calls S head names a m) (hfree : Unclaimed S head names m) (j : FeedId) (b : Bool) :
    Calls S head names a (m.updateFeed j fun f => { f with noLookahead := b }) ∧
      Unclaimed S head names (m.updateFeed j fun f => { f with noLookahead := b }) := by
  generalize hm' : (m.updateFeed j fun f => { f with noLookahead := b }) = m'
  have hunits : (m'.feed S.feed).units = (m.feed S.feed).units := by
    rw [← hm', Machine.feed_updateFeed]
    split <;> rfl
  have hscope : (m'.feed S.feed).scope = (m.feed S.feed).scope := by
    rw [← hm', Machine.feed_updateFeed]
    split <;> rfl
  have hlookup : ∀ scope name, m'.lookup scope name = m.lookup scope name := by
    intro scope name
    rw [← hm']
    rfl
  refine ⟨⟨hunits.trans h.faces, ?_⟩, ?_⟩
  · simpa only [hscope, hlookup] using h.bound
  · unfold Unclaimed claimOf at hfree ⊢
    simpa only [hscope, hlookup] using hfree

section

variable {head : String} {names names' : List String} {a : Action} (hfeed : frame.feed = S.feed)
  (hunit : S.unit = callPath head names') (h : Calls S head names a m)
include hfeed h

theorem dispatch_agree (hnames : names.Nodup) (hnames' : names'.Nodup) :
    S.Agree (fun r r' =>
        r = (frame, .processAction { action := a, label := head, requests := names }) ∧
          r' = (frame, .processAction { action := a, label := head, requests := names' }))
      (ev.transition frame (.dispatch (callPath head names)))
      (ev.transition frame (.dispatch (callPath head names'))) m := by
  show S.Agree _ (Eval.advance frame.feed >>= fun _ => ev.evalPath frame.feed _ true >>= _)
    (Eval.advance frame.feed >>= fun _ => ev.evalPath frame.feed _ true >>= _) _
  rw [hfeed]
  have hadvance : S.Agree (fun _ _ => True) (Eval.advance S.feed) (Eval.advance S.feed) m :=
    Agree.command (c := .advance S.feed) trivial h.faces.advance
  refine hadvance.bind fun _ _ m₁ h₁ _ => ?_
  obtain rfl : m.updateFeed S.feed Feed.advance = m₁ := (Prod.mk.inj h₁).2
  have hscope : ((m.updateFeed S.feed Feed.advance).feed S.feed).scope = (m.feed S.feed).scope := by
    rw [Machine.feed_updateFeed, if_pos ⟨rfl, h.faces.size⟩, Feed.scope_advance]
  obtain ⟨identity, hbound⟩ := h.bound
  rw [← hscope] at hbound
  refine (evalPath_agree h.faces.consumed hbound hnames hnames').bind fun r r' _ _ hr => ?_
  obtain ⟨rfl, rfl⟩ := hr
  exact .ret ⟨rfl, rfl⟩

theorem drive_dispatch_agree (N : S.logic.Nested ev)
    (hreordered : PendingCall.Reordered { action := a, label := head, requests := names }
      { action := a, label := head, requests := names' }) :
    S.Agree Eq (ev.drive fuel frame (.dispatch (callPath head names)))
      (ev.drive fuel frame (.dispatch (callPath head names'))) m := by
  cases fuel with
  | zero => exact .exhaust
  | succ fuel =>
    have hnames' : names'.Nodup := hreordered.perm.nodup_iff.2 hreordered.distinct
    refine drive_agree (by simp) (by simp) rfl
      (fun journal => dispatch_agree hfeed (h.journal journal) hreordered.distinct hnames')
      fun journal r r' m' hrun hr => ?_
    obtain ⟨rfl, rfl⟩ := hr
    have hunits : Machine.units { m with journal } S.feed = S.rest.length + 1 := by
      show (m.feed S.feed).units.length = _
      rw [h.faces, List.length_cons]
    have hfed : StepState.Fed { m with journal } frame.feed (.dispatch (callPath head names)) := by
      show 0 < Machine.units { m with journal } frame.feed
      rw [hfeed, hunits]
      exact Nat.succ_pos _
    obtain ⟨-, hfollows⟩ := transition_follows hfed (by simp) hrun
    have hneed := hfollows.need_lt
    rw [hfeed] at hfollows hneed
    simp only [StepState.need, hunits] at hneed
    exact drive_call_agree N hfeed ⟨hfollows.fed, by omega⟩ hreordered

omit hfeed in
theorem claimOf_peekNext (hfree : Unclaimed S head names m) :
    claimOf m S.feed (callPath head names) (m.feed S.feed).peekNext = none := by
  have hunits : (m.feed S.feed).units = callPath head names :: S.rest := h.faces
  rw [Feed.peekNext, hunits, List.getElem?_cons_succ, ← List.head?_eq_getElem?]
  exact hfree

omit hfeed in
theorem leftClaim?_agree :
    S.Agree Eq (leftClaim? S.feed (callPath head names)) (leftClaim? S.feed (callPath head names'))
      m := by
  have hunits : (m.feed S.feed).units = callPath head names :: S.rest := h.faces
  have hpeek : (m.feed S.feed).peekNext = ((S.machine m).feed S.feed).peekNext := by
    rw [h.faces.machine, Feed.peekNext, hunits]
    rfl
  refine (Agree.command (c := .peekNext S.feed) (R := Eq) hpeek rfl).bind
    fun next next' m₁ _ hn => ?_
  subst hn
  refine (Agree.wordAction? next).bind fun found found' _ _ hf => ?_
  subst hf
  cases found <;> exact .ret rfl

theorem lookbackQuote_run (hfree : Unclaimed S head names m) :
    ev.transition frame (.lookbackQuote (callPath head names)) m =
      (.done (frame, .dispatch (callPath head names)), m) := by
  rw [transition_lookbackQuote, hfeed, claimOf_peekNext h hfree]
  rfl

theorem lookbackQuote_agree (hfree : Unclaimed S head names m) :
    S.Agree (fun r r' => r = (frame, .dispatch (callPath head names)) ∧
        r' = (frame, .dispatch (callPath head names')))
      (ev.transition frame (.lookbackQuote (callPath head names)))
      (ev.transition frame (.lookbackQuote (callPath head names'))) m := by
  show S.Agree _
    (leftClaim? frame.feed _ >>= ev.takeClaim frame.feed _ >>= fun state => pure (frame, state))
    (leftClaim? frame.feed _ >>= ev.takeClaim frame.feed _ >>= fun state => pure (frame, state)) m
  rw [hfeed]
  refine Agree.bind (R := fun state state' => state = .dispatch (callPath head names) ∧
    state' = .dispatch (callPath head names')) ?_ fun state state' _ _ hs => ?_
  · refine (leftClaim?_agree h).bind fun claim claim' m₁ hrun hc => ?_
    rw [leftClaim?_eq, claimOf_peekNext h hfree] at hrun
    cases hrun
    subst hc
    exact .ret ⟨rfl, rfl⟩
  · obtain ⟨rfl, rfl⟩ := hs
    exact .ret ⟨rfl, rfl⟩

theorem start_run : ev.transition frame .start m =
    (.done (frame, .lookbackQuote (callPath head names)), m) := by
  have hpeek : Eval.peek frame.feed m = (.done (some (callPath head names)), m) := by
    show (Outcome.done (m.feed frame.feed).peek, m) = _
    rw [hfeed, Feed.peek, show (m.feed S.feed).units = _ from h.faces]
    rfl
  have hstart : startStep frame m = (.done (.lookbackQuote (callPath head names)), m) := by
    rw [startStep, Eval.run_bind_of_done hpeek]
    rfl
  exact Eval.run_bind_of_done hstart

include hunit in
theorem start_agree :
    S.Agree (fun r r' => r = (frame, .lookbackQuote (callPath head names)) ∧
        r' = (frame, .lookbackQuote (callPath head names')))
      (ev.transition frame .start) (ev.transition frame .start) m := by
  have hpeek : S.Agree
      (fun u u' => u = some (callPath head names) ∧ u' = some (callPath head names'))
      (Eval.peek S.feed) (Eval.peek S.feed) m := by
    refine Agree.command (c := .peek S.feed) ⟨?_, ?_⟩ rfl
    · show (m.feed S.feed).peek = _
      rw [Feed.peek, show (m.feed S.feed).units = _ from h.faces]
      rfl
    · show ((S.machine m).feed S.feed).peek = _
      rw [Feed.peek, h.faces.other, hunit]
      rfl
  show S.Agree _ (startStep frame >>= fun state => pure (frame, state))
    (startStep frame >>= fun state => pure (frame, state)) m
  unfold startStep
  rw [hfeed, Eval.bind_assoc]
  refine hpeek.bind fun u u' _ _ hu => ?_
  obtain ⟨rfl, rfl⟩ := hu
  exact .ret ⟨rfl, rfl⟩

variable (N : S.logic.Nested ev) (hfree : Unclaimed S head names m)
  (hreordered : PendingCall.Reordered { action := a, label := head, requests := names }
    { action := a, label := head, requests := names' })
include N hfree hreordered

theorem drive_lookback_agree :
    S.Agree Eq (ev.drive fuel frame (.lookbackQuote (callPath head names)))
      (ev.drive fuel frame (.lookbackQuote (callPath head names'))) m := by
  cases fuel with
  | zero => exact .exhaust
  | succ fuel =>
    refine drive_agree (by simp) (by simp) rfl
      (fun journal => lookbackQuote_agree hfeed (h.journal journal) hfree)
      fun journal r r' m' hrun hr => ?_
    obtain ⟨rfl, rfl⟩ := hr
    rw [lookbackQuote_run hfeed (h.journal journal) hfree] at hrun
    cases hrun
    exact drive_dispatch_agree hfeed (h.journal journal) N hreordered

include hunit

theorem drive_start_agree :
    S.Agree Eq (ev.drive fuel frame .start) (ev.drive fuel frame .start) m := by
  cases fuel with
  | zero => exact .exhaust
  | succ fuel =>
    refine drive_agree (by simp) (by simp) rfl
      (fun journal => start_agree hfeed hunit (h.journal journal)) fun journal r r' m' hrun hr => ?_
    obtain ⟨rfl, rfl⟩ := hr
    rw [start_run hfeed (h.journal journal)] at hrun
    cases hrun
    exact drive_lookback_agree hfeed (h.journal journal) N hfree hreordered

theorem evalStep_agree :
    S.Agree Eq (ev.evalStep frame) (ev.evalStep frame) m := by
  refine (Agree.noLookahead frame.feed).bind fun noLookahead noLookahead' m₁ h₁ hb => ?_
  subst hb
  obtain ⟨hcalls₁, hfree₁⟩ : Calls S head names a m₁ ∧ Unclaimed S head names m₁ := by
    cases h₁
    exact h.setNoLookahead hfree frame.feed false
  refine Agree.poll.bind fun s? s?' m₂ h₂ hs => ?_
  subst hs
  obtain ⟨hcalls₂, hfree₂⟩ : Calls S head names a m₂ ∧ Unclaimed S head names m₂ := by
    obtain ⟨_, _, _, _, hpoll⟩ := m₁.poll_eq
    obtain rfl : m₁.poll.2 = m₂ := (Prod.mk.inj h₂).2
    rw [hpoll]
    exact ⟨⟨hcalls₁.faces, hcalls₁.bound⟩, hfree₁⟩
  cases s? with
  | some s => exact .ret rfl
  | none =>
    have hunits : (m₂.feed S.feed).units.length = ((S.machine m₂).feed S.feed).units.length := by
      rw [hcalls₂.faces.machine, show (m₂.feed S.feed).units = _ from hcalls₂.faces]
      rfl
    refine (Agree.command (c := .unitsLeft frame.feed) (R := Eq) (hfeed ▸ hunits) rfl).bind
      fun units units' m₃ h₃ hu => ?_
    subst hu
    cases h₃
    exact drive_start_agree hfeed hunit hcalls₂ N hfree₂ hreordered

end

theorem stepToEnd_agree
    (hsteps : ∀ frame, Blind S.feed S.unit S.rest.length (fun _ => True) (ev.step frame))
    (hprogress : ev.Progresses) {unit : Value} (hfeed : frame.feed = S.feed)
    (hfaces : S.Faces unit m) (hstep : S.Agree Eq (ev.step frame) (ev.step frame) m) :
    S.Agree Eq (ev.stepToEnd fuel frame) (ev.stepToEnd fuel frame) m := by
  have hunits : (m.feed S.feed).units = unit :: S.rest := hfaces
  have hatEnd : S.Agree (fun e e' => e = false ∧ e' = false) (Eval.atEnd frame.feed)
      (Eval.atEnd frame.feed) m := by
    rw [hfeed]
    refine (Agree.command (c := .peek S.feed) (R := fun u u' => u = some unit ∧ u' = some S.unit)
      ⟨?_, ?_⟩ rfl).bind fun u u' _ _ hu => ?_
    · show (m.feed S.feed).peek = _
      rw [Feed.peek, hunits]
      rfl
    · show ((S.machine m).feed S.feed).peek = _
      rw [Feed.peek, hfaces.other]
      rfl
    · obtain ⟨rfl, rfl⟩ := hu
      exact .ret ⟨rfl, rfl⟩
  cases fuel with
  | zero =>
    refine hatEnd.bind fun e e' _ _ he => ?_
    obtain ⟨rfl, rfl⟩ := he
    exact .exhaust
  | succ fuel =>
    refine hatEnd.bind fun e e' m₁ h₁ he => ?_
    obtain ⟨rfl, rfl⟩ := he
    obtain ⟨rfl, -⟩ := Guard.units_of_atEnd h₁
    refine hstep.bind fun stepped stepped' m₂ h₂ hs => ?_
    subst hs
    obtain ⟨hsame, hless⟩ := hprogress frame m₁ stepped m₂ h₂
    unfold Stepped.frameOrThrow
    cases hsignal : stepped.signal with
    | some s => exact .signal
    | none =>
      have hle := hless hsignal
      have hconsumed : S.Consumed m₂ := by
        have hshrink : Machine.FeedsShrink m₁ m₂ := .of_run h₂
        refine ⟨Nat.lt_of_lt_of_le hfaces.size hshrink.size_le, ?_⟩
        rwa [hfeed, Machine.units, Machine.units, hunits, List.length_cons, Nat.add_sub_cancel] at hle
      exact .of_blind hconsumed (stepToEnd_blind hsteps)

end Evaluator

/-- The refinements that a call by path names may stand in any order.  From machines that differ in
nothing but that order, the evaluation of the path goes alike: the same things are asked of the
machine in the same order, it ends with the same result or signal, or with faults that differ at
most in the unit they arose near, and the machines that are left differ in nothing but the path,
where the feed still has it.  So does the step that begins with the path, and the run of the feed to
its end, unless the path is not evaluated because an action takes it on as it stands.  However much
of the feed is left, the slots of the call are filled alike. -/
theorem refinements_commute {patience nesting fuel : Nat} {frame : Frame} {m : Machine}
    {head : String} {identity : Identity} {a : Action} {names names' : List String}
    {rest items : List Value} {spec : Spec} (read : Spec.read items = .ok spec)
    (params : a.params = spec.params ∨ functionParams spec = .ok a.params)
    (declared : ∀ name ∈ names, ∃ p ∈ a.params, p.role = .refinement ∧ p.name = name)
    (distinct : names.Nodup) (perm : names'.Perm names)
    (bound : m.lookup (m.feed frame.feed).scope head = some (.action identity a))
    (code : (m.feed frame.feed).units = Evaluator.callPath head names :: rest) :
    let ev : Evaluator := ⟨stepWithin patience nesting, patience⟩
    let S : Respelling := { feed := frame.feed, unit := Evaluator.callPath head names', rest }
    S.Agree Eq (ev.drive fuel frame (.dispatch (Evaluator.callPath head names)))
        (ev.drive fuel frame (.dispatch (Evaluator.callPath head names'))) m ∧
      (Evaluator.Unclaimed S head names m →
        S.Agree Eq (ev.step frame) (ev.step frame) m ∧
        S.Agree Eq (ev.stepToEnd fuel frame) (ev.stepToEnd fuel frame) m) ∧
      ∀ (id : FrameId) (n : Machine), S.Consumed n →
        S.Agree CallState.Alike
          (ev.fulfil { id, feed := frame.feed } none
            (CallState.start { action := a, label := head, requests := names }))
          (ev.fulfil { id, feed := frame.feed } none
            (CallState.start { action := a, label := head, requests := names' })) n := by
  intro ev S
  have hw : WellOwned a.params := by
    have hs := Spec.read_wellOwned read
    rcases params with hp | hp
    · exact hp ▸ hs
    · exact functionParams_wellOwned hs hp
  have hreordered : PendingCall.Reordered { action := a, label := head, requests := names }
      { action := a, label := head, requests := names' } := ⟨rfl, perm, distinct, declared, hw, rfl⟩
  have hsteps : ∀ frame, Blind S.feed S.unit S.rest.length (fun _ => True) (ev.step frame) :=
    stepWithin_blind S.feed S.unit S.rest.length patience nesting
  have N : S.logic.Nested ev := Evaluator.nested_blind hsteps
  have hcalls : Evaluator.Calls S head names a m := ⟨code, identity, bound⟩
  refine ⟨Evaluator.drive_dispatch_agree rfl hcalls N hreordered, fun hfree => ?_, fun id n hn =>
    Evaluator.fulfil_agree N hn hreordered⟩
  have hstep : S.Agree Eq (ev.step frame) (ev.step frame) m := by
    cases nesting with
    | zero => exact .exhaust
    | succ nesting =>
      have hinner : ∀ frame, Blind S.feed S.unit S.rest.length (fun _ => True)
          (Evaluator.step ⟨stepWithin patience nesting, patience⟩ frame) :=
        stepWithin_blind S.feed S.unit S.rest.length patience nesting
      have N' := @Evaluator.nested_blind ⟨stepWithin patience nesting, patience⟩ _ _ _ hinner
      exact Evaluator.evalStep_agree rfl rfl hcalls N' hfree hreordered
  exact ⟨hstep,
    Evaluator.stepToEnd_agree hsteps (stepWithin_progresses patience nesting) rfl code hstep⟩

/-- The action of `[a [integer!] /x xa [integer!] /y ya [integer!]]`, which gives `ya`. -/
def choosySpec : List Value :=
  [.word "a", .block [.word "integer!"], .refinement "x", .word "xa", .block [.word "integer!"],
    .refinement "y", .word "ya", .block [.word "integer!"]]

def choosyAction : Action :=
  { label := none
    params := (Spec.read choosySpec).toOption.elim [] (·.params)
    signature := 0
    dispatcher := .interpreted [.word "ya"] 0
    exemplar := none
    enfixed := false
    deferral := .none
    description := none }

/-- A machine about to call the action with the refinements `names` on `1 2 3`. -/
def choosing (names : List String) : Machine :=
  { Machine.new {} with
    scopes := ⟨#[{ bindings := [("f", .action 0 choosyAction)] }]⟩
    feeds := #[{ units := [Evaluator.callPath "f" names, .integer 1, .integer 2, .integer 3]
                 scope := 0 }] }

/-- The argument of `/y` is the third one, whether it is named before `/x` or after it. -/
theorem refinements_commute_choosing : ∃ s,
    (stepWithin 1 5 { id := 0, feed := 0 } (choosing ["x", "y"])).1 = .done s ∧
      (stepWithin 1 5 { id := 0, feed := 0 } (choosing ["y", "x"])).1 = .done s ∧
      s.frame.out.last.map Value.mold = some "3" := by
  have hout : (stepWithin 1 5 { id := 0, feed := 0 } (choosing ["x", "y"])).1.result?.map
      (fun s => s.frame.out.last.map Value.mold) = some (some "3") := by
    decide +kernel
  obtain ⟨s, hs, hvalue⟩ := Option.map_eq_some_iff.1 hout
  have hrun := Eval.run_of_result? hs
  have read : Spec.read choosySpec = .ok { params := choosyAction.params } := rfl
  have declared : ∀ name ∈ ["x", "y"],
      ∃ p ∈ choosyAction.params, p.role = .refinement ∧ p.name = name := by
    decide
  let S : Respelling :=
    { feed := 0
      unit := Evaluator.callPath "f" ["y", "x"]
      rest := [.integer 1, .integer 2, .integer 3] }
  have free : Evaluator.Unclaimed S "f" ["x", "y"] (choosing ["x", "y"]) := rfl
  have hagree : S.Agree Eq (stepWithin 1 5 { id := 0, feed := 0 })
      (stepWithin 1 5 { id := 0, feed := 0 }) (choosing ["x", "y"]) :=
    ((@refinements_commute 1 5 1 { id := 0, feed := 0 } _ _ 0 _ _ _ _ _ _ read (.inl rfl) declared
      (by decide) (.swap "x" "y" []) rfl rfl).2.1 free).1
  have hrespelt : S.machine (choosing ["x", "y"]) = choosing ["y", "x"] := rfl
  have hrun' := hagree.eq_of_done hrun
  rw [hrespelt] at hrun'
  refine ⟨s, by rw [hrun], by rw [hrun'], hvalue⟩

end Homoicon
