import Homoicon.Proofs.Life
import Homoicon.Proofs.Mirror
import Homoicon.Supply

/-!
# Cursors and queues

Whichever supply the units of a feed come from, looking and advancing come to the same.  So every
command gives the same answer and leaves the same machine but for the kind of its supplies, and with
the commands every evaluation does.  Code that a host hands over unit by unit does what the same code
does as a whole, in the evaluation itself and in all that come after it, even if they hold on to its
feed.
-/

namespace Homoicon

/-! ### Supplies -/

namespace Supply

variable (s : Supply)

theorem peek_eq : s.peek = s.units.head? := by
  cases s with
  | array units cursor => rw [peek, Supply.units, List.head?_drop, Array.getElem?_toList]
  | queue units => rfl

theorem peekNext_eq : s.peekNext = s.units[1]? := by
  cases s with
  | array units cursor => rw [peekNext, Supply.units, List.getElem?_drop, Array.getElem?_toList]
  | queue units => rfl

theorem next_of_nil {s : Supply} (h : s.units = []) : s.next = (none, s) := by
  cases s with
  | array units cursor =>
    have hunit : units[cursor]? = none := by
      rw [← Array.getElem?_toList, ← List.head?_drop]
      exact congrArg List.head? h
    simp only [next, hunit]
  | queue units =>
    cases h
    rfl

theorem next_of_cons {s : Supply} {unit : Value} {rest : List Value} (h : s.units = unit :: rest) :
    ∃ s', s.next = (some unit, s') ∧ s'.units = rest := by
  cases s with
  | array units cursor =>
    have hunit : units[cursor]? = some unit := by
      rw [← Array.getElem?_toList, ← List.head?_drop]
      exact congrArg List.head? h
    refine ⟨array units (cursor + 1), by simp only [next, hunit], ?_⟩
    have hrest : (units.toList.drop cursor).tail = rest := congrArg List.tail h
    rwa [List.tail_drop] at hrest
  | queue units =>
    cases h
    exact ⟨queue rest, rfl, rfl⟩

end Supply

namespace SuppliedFeed

theorem view_advance (f : SuppliedFeed) : f.advance.view = f.view.advance := by
  unfold advance
  cases hunits : f.supply.units with
  | nil =>
    have hview : f.view.units = [] := hunits
    rw [Supply.next_of_nil hunits, Feed.advance, hview]
  | cons unit rest =>
    have hview : f.view.units = unit :: rest := hunits
    obtain ⟨supply, hnext, rfl⟩ := Supply.next_of_cons hunits
    rw [hnext, Feed.advance, hview]
    rfl

end SuppliedFeed

/-! ### Machines -/

namespace SuppliedMachine

variable (h : SuppliedMachine) (id : FeedId)

theorem view_eq : h.view = h.rest.withFeeds (h.feeds.map SuppliedFeed.view) := rfl

theorem view_feed : h.view.feed id = (h.feed id).view := by
  rw [Machine.feed_eq, feed, Array.getD_eq_getD_getElem?]
  show ((h.feeds.map SuppliedFeed.view)[id]?).getD default = _
  rw [Array.getElem?_map]
  cases h.feeds[id]? <;> rfl

theorem view_addFeed (f : SuppliedFeed) :
    (h.addFeed f).view = h.view.withFeeds (h.view.feeds.push f.view) := by
  rw [view_eq, addFeed, Array.map_push]
  rfl

theorem view_updateFeed {f : SuppliedFeed → SuppliedFeed} {g : Feed → Feed}
    (hview : ∀ feed, (f feed).view = g feed.view) :
    (h.updateFeed id f).view = h.view.updateFeed id g := by
  have hfeeds : (h.feeds.modify id f).map SuppliedFeed.view =
      (h.feeds.map SuppliedFeed.view).modify id g := by
    apply Array.ext_getElem?
    intro j
    rw [Array.getElem?_map, Array.getElem?_modify, Array.getElem?_modify, Array.getElem?_map]
    split
    · rw [Option.map_map, Option.map_map]
      exact congrArg (Option.map · _) (funext hview)
    · rfl
  rw [view_eq, updateFeed, hfeeds]
  rfl

end SuppliedMachine

/-! ### Evaluations -/

/-- The answer and the machine without its supplies are those of the machine without supplies. -/
theorem Command.runSupplied_view {β : Type} (c : Command β) (h : SuppliedMachine) :
    c.run h.view = ((c.runSupplied h).1, (c.runSupplied h).2.view) := by
  cases c with
  | newFeed units scope =>
    have hsize : h.view.feeds.size = h.feeds.size := Array.size_map
    have hadd := h.view_addFeed (.ofUnits units scope)
    simp only [run, runSupplied, hsize, hadd]
    rfl
  | feed id => simp only [run, runSupplied, h.view_feed]
  | scopeOf id =>
    simp only [run, runSupplied, h.view_feed]
    rfl
  | peek id =>
    simp only [run, runSupplied, h.view_feed, Supply.peek_eq]
    rfl
  | peekNext id =>
    simp only [run, runSupplied, h.view_feed, Supply.peekNext_eq]
    rfl
  | lookback id =>
    simp only [run, runSupplied, h.view_feed]
    rfl
  | unitsLeft id =>
    simp only [run, runSupplied, h.view_feed]
    rfl
  | noLookahead id =>
    simp only [run, runSupplied, h.view_feed]
    rfl
  | deferring id =>
    simp only [run, runSupplied, h.view_feed]
    rfl
  | advance id =>
    simp only [run, runSupplied, h.view_updateFeed id SuppliedFeed.view_advance]
  | setNoLookahead id b =>
    have hset := h.view_updateFeed id (f := fun f => { f with noLookahead := b })
      (g := fun f => { f with noLookahead := b }) fun _ => rfl
    simp only [run, runSupplied, hset]
  | setDeferring id b =>
    have hset := h.view_updateFeed id (f := fun f => { f with deferring := b })
      (g := fun f => { f with deferring := b }) fun _ => rfl
    simp only [run, runSupplied, hset]
  | poll => exact h.rest.withFeeds_poll _
  | note e => exact congrArg _ (h.rest.withFeeds_note _ e)
  | noteState frame state => exact h.rest.withFeeds_noteState _ frame state
  | assign scope name v => exact congrArg _ (h.rest.withFeeds_assign _ scope name v)
  | _ => rfl

theorem Eval.runSupplied_view {α : Type} (x : Eval α) (h : SuppliedMachine) :
    x h.view = ((x.runSupplied h).1, (x.runSupplied h).2.view) := by
  induction x generalizing h with
  | done a => rfl
  | signal s => rfl
  | fail f => rfl
  | exhaust => rfl
  | ask c next ih =>
    simp only [run, runSupplied, c.runSupplied_view h]
    exact ih _ _
  | inFrame label body next ihbody ihnext =>
    by_cases hroom : h.rest.config.maxDepth ≤ h.rest.depth
    · have hroom' : h.view.config.maxDepth ≤ h.view.depth := hroom
      simp only [run, runSupplied, hroom, hroom', if_true]
      rfl
    · have hroom' : ¬h.view.config.maxDepth ≤ h.view.depth := hroom
      -- frames are entered and left on the rest of the machine, so `view` goes past them
      have hbody : (body h.rest.nextFrame).run (h.view.enter label) = _ :=
        ihbody h.rest.nextFrame (h.enter label)
      simp only [run, runSupplied, hroom, hroom', if_false]
      rw [show h.view.nextFrame = h.rest.nextFrame from rfl, hbody]
      rcases (body h.rest.nextFrame).runSupplied (h.enter label) with ⟨b | s | f | _, h'⟩
      · exact ihnext b (h'.leave h.rest.nextFrame)
      all_goals rfl
  | seeSignal x next ihx ihnext =>
    simp only [run, runSupplied, show x.run h.view = _ from ihx h]
    rcases x.runSupplied h with ⟨b | s | f | _, h'⟩
    · exact ihnext (.ok b) h'
    · exact ihnext (.error s) h'
    all_goals rfl
  | seeFault x next ihx ihnext =>
    simp only [run, runSupplied, show x.run h.view = _ from ihx h]
    rcases x.runSupplied h with ⟨b | s | f | _, h'⟩
    · exact ihnext (.ok b) h'
    · rfl
    · exact ihnext (.error f) h'
    · rfl

theorem Eval.runSupplied_congr {α : Type} (x : Eval α) {h h' : SuppliedMachine}
    (hview : h.view = h'.view) :
    (x.runSupplied h).1 = (x.runSupplied h').1 ∧
      (x.runSupplied h).2.view = (x.runSupplied h').2.view := by
  have hrun := x.runSupplied_view h
  rw [hview, x.runSupplied_view h'] at hrun
  exact ⟨(Prod.mk.inj hrun).1.symm, (Prod.mk.inj hrun).2.symm⟩

/-! ### Sessions -/

namespace SuppliedSession

variable (s : SuppliedSession)

theorem noteFinished_view (start : Nat) : (s.noteFinished start).view = s.view.noteFinished start :=
  congrArg (Session.mk · s.lib s.user) (s.machine.rest.withFeeds_note _ _).symm

theorem evalSupply_view (supply : Supply) :
    s.view.evalUnits supply.units = ((s.evalSupply supply).1, (s.evalSupply supply).2.view) := by
  let opened := s.machine.addFeed { supply, scope := s.user }
  let x := (Evaluator.ofConfig s.machine.rest.config).runFeed s.machine.feeds.size
  have hnew : Eval.newFeed supply.units s.user s.machine.view =
      (.done s.machine.feeds.size, opened.view) := by
    have hopened : opened.view = _ := s.machine.view_addFeed { supply, scope := s.user }
    have hsize : s.machine.view.feeds.size = s.machine.feeds.size := Array.size_map
    rw [hopened, ← hsize]
    rfl
  have hrun : s.view.evaluator.runUnits supply.units s.view.user s.view.machine =
      ((x.runSupplied opened).1, (x.runSupplied opened).2.view) :=
    (Eval.run_bind_of_done hnew).trans (x.runSupplied_view opened)
  have heval : s.evalSupply supply = s.answer s.view.machine.tick (x.runSupplied opened) := rfl
  rw [heval]
  simp only [Session.evalUnits, Session.run_eq, hrun]
  -- only a run that did not fail is noted as finished
  rcases x.runSupplied opened with ⟨v | signal | f | _, machine⟩
  · exact congrArg (Prod.mk _) (noteFinished_view ⟨machine, s.lib, s.user⟩ _).symm
  · exact congrArg (Prod.mk _) (noteFinished_view ⟨machine, s.lib, s.user⟩ _).symm
  · rfl
  · rfl

theorem evalArray_view (units : List Value) :
    s.view.evalUnits units = ((s.evalArray units).1, (s.evalArray units).2.view) :=
  s.evalSupply_view (.array units.toArray 0)

theorem evalItems_view (items : List FeedItem) :
    s.view.evalItems items = ((s.evalItems items).1, (s.evalItems items).2.view) := by
  unfold Session.evalItems evalItems Supply.ofItems
  cases Feed.unitsOfItems items with
  | ok units => exact s.evalSupply_view (.queue units)
  | error e => rfl

end SuppliedSession

theorem Feed.unitsOfItems_code (units : List Value) :
    Feed.unitsOfItems (units.map .code) = .ok units := by
  induction units with
  | nil => rfl
  | cons unit units ih =>
    rw [List.map_cons, Feed.unitsOfItems, ih]
    rfl

/-- Code as a whole and the same code unit by unit give the host the same result and leave the same
session, whatever feeds were there before: the same bindings, the same counts of steps and frames, the
same request to stop, and on every feed the same units left.  Both are what the session without
supplies does.  All that is evaluated later comes to the same as well, a pull from a varargs that kept
the feed included. -/
theorem SuppliedSession.supplies_interchangeable (s : SuppliedSession) (units : List Value) :
    let whole := s.evalArray units
    let queued := s.evalItems (units.map .code)
    queued.1 = whole.1 ∧ queued.2.view = whole.2.view ∧
    s.view.evalUnits units = (whole.1, whole.2.view) ∧
    s.view.evalItems (units.map .code) = (queued.1, queued.2.view) ∧
    ∀ {α : Type} (x : Eval α),
      (x.runSupplied queued.2.machine).1 = (x.runSupplied whole.2.machine).1 ∧
      (x.runSupplied queued.2.machine).2.view = (x.runSupplied whole.2.machine).2.view := by
  intro whole queued
  have hwhole : s.view.evalUnits units = (whole.1, whole.2.view) := s.evalArray_view units
  have hqueued : s.view.evalItems (units.map .code) = (queued.1, queued.2.view) :=
    s.evalItems_view (units.map .code)
  have hsame : (queued.1, queued.2.view) = (whole.1, whole.2.view) := by
    rw [← hqueued, ← hwhole]
    exact s.view.evalItems_of_units (Feed.unitsOfItems_code units)
  obtain ⟨hresult, hview⟩ := Prod.mk.inj hsame
  refine ⟨hresult, hview, hwhole, hqueued, fun x => ?_⟩
  exact x.runSupplied_congr (congrArg Session.machine hview)

end Homoicon
