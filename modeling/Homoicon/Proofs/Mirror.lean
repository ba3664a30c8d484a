import Homoicon.Proofs.Routing

/-!
# Runs that mirror each other

Two machines that differ in nothing but the units of one feed, and in these only behind what a run
looks at.  The runs then go alike: the same outcome, and machines that again differ in nothing but
what is left of that feed.
-/

namespace Homoicon

/-- Two lists of units agree at all positions up to `k`; a position behind the last unit is an end. -/
def AgreeUpTo (k : Nat) (us vs : List Value) : Prop := ∀ i ≤ k, us[i]? = vs[i]?

theorem AgreeUpTo.mono {j k : Nat} {us vs : List Value} (h : AgreeUpTo k us vs) (hj : j ≤ k) :
    AgreeUpTo j us vs :=
  fun i hi => h i (Nat.le_trans hi hj)

theorem AgreeUpTo.drop {j k : Nat} {us vs : List Value} (h : AgreeUpTo (j + k) us vs) :
    AgreeUpTo k (us.drop j) (vs.drop j) := by
  intro i hi
  rw [List.getElem?_drop, List.getElem?_drop]
  exact h (j + i) (Nat.add_le_add_left hi j)

theorem AgreeUpTo.head {k : Nat} {us vs : List Value} (h : AgreeUpTo k us vs) :
    us.head? = vs.head? := by
  rw [List.head?_eq_getElem?, List.head?_eq_getElem?]
  exact h 0 (Nat.zero_le k)

theorem AgreeUpTo.le_length {k : Nat} {us vs : List Value} (h : AgreeUpTo k us vs)
    (hk : k ≤ us.length) : k ≤ vs.length := by
  cases k with
  | zero => exact Nat.zero_le _
  | succ k =>
    have hk' : us[k]? = vs[k]? := h k (Nat.le_succ k)
    rw [List.getElem?_eq_getElem hk] at hk'
    exact (List.getElem?_eq_some_iff.1 hk'.symm).1

namespace Machine

variable (m : Machine) (id : FeedId) (units : List Value)

def withUnits : Machine := m.updateFeed id fun f => { f with units }

/-- How many units of a feed are gone in a later machine. -/
def consumed (m' : Machine) : Nat := m.units id - m'.units id

@[simp] theorem withUnits_size : (m.withUnits id units).feeds.size = m.feeds.size := by
  simp [withUnits, updateFeed]

theorem withUnits_feed_self (h : id < m.feeds.size) :
    (m.withUnits id units).feed id = { m.feed id with units } := by
  rw [withUnits, feed_updateFeed, if_pos ⟨rfl, h⟩]

theorem withUnits_feed_ne {j : FeedId} (h : j ≠ id) : (m.withUnits id units).feed j = m.feed j := by
  rw [withUnits, feed_updateFeed, if_neg fun hj => h hj.1.symm]

theorem withUnits_units_self (h : id < m.feeds.size) :
    (m.withUnits id units).units id = units.length := by
  rw [Machine.units, withUnits_feed_self m id units h]

theorem withUnits_units_ne {j : FeedId} (h : j ≠ id) :
    (m.withUnits id units).units j = m.units j := by
  rw [Machine.units, withUnits_feed_ne m id units h, Machine.units]

theorem withUnits_feed (j : FeedId) : ∃ us, (m.withUnits id units).feed j = { m.feed j with units := us } := by
  rw [withUnits, feed_updateFeed]
  split
  · exact ⟨units, rfl⟩
  · exact ⟨(m.feed j).units, rfl⟩

theorem updateFeed_congr {m : Machine} {id : FeedId} {f g : Feed → Feed}
    (h : f (m.feed id) = g (m.feed id)) : m.updateFeed id f = m.updateFeed id g := by
  have hfeeds : m.feeds.modify id f = m.feeds.modify id g := by
    apply Array.ext_getElem?
    intro j
    rw [Array.getElem?_modify, Array.getElem?_modify]
    by_cases hj : id = j
    · subst hj
      rw [feed_eq] at h
      cases hfeed : m.feeds[id]? with
      | none => simp
      | some feed =>
        rw [hfeed] at h
        simpa using h
    · simp [hj]
  rw [updateFeed, updateFeed, hfeeds]

theorem updateFeed_updateFeed {f g : Feed → Feed} :
    (m.updateFeed id f).updateFeed id g = m.updateFeed id fun feed => g (f feed) := by
  have hfeeds : (m.feeds.modify id f).modify id g = m.feeds.modify id fun feed => g (f feed) := by
    apply Array.ext_getElem?
    intro j
    simp only [Array.getElem?_modify]
    by_cases hj : id = j
    · cases m.feeds[j]? <;> simp [hj]
    · simp [hj]
  simp only [updateFeed, hfeeds]

theorem updateFeed_comm {j : FeedId} (h : id ≠ j) {f g : Feed → Feed} :
    (m.updateFeed id f).updateFeed j g = (m.updateFeed j g).updateFeed id f := by
  have hfeeds : (m.feeds.modify id f).modify j g = (m.feeds.modify j g).modify id f := by
    apply Array.ext_getElem?
    intro i
    simp only [Array.getElem?_modify]
    by_cases hid : id = i
    · have hj : j ≠ i := fun hj => h (hid.trans hj.symm)
      simp [hid, hj]
    · simp [hid]
  simp only [updateFeed, hfeeds]

theorem withUnits_updateFeed (j : FeedId) {f : Feed → Feed}
    (h : ∀ (feed : Feed) us, f { feed with units := us } = { f feed with units := us }) :
    (m.withUnits id units).updateFeed j f = (m.updateFeed j f).withUnits id units := by
  by_cases hj : id = j
  · subst hj
    rw [withUnits, withUnits, updateFeed_updateFeed, updateFeed_updateFeed]
    exact updateFeed_congr (h _ _)
  · exact updateFeed_comm m id hj

/-! What does not touch feeds goes together with every change to them. -/

def withFeeds (feeds : Array Feed) : Machine := { m with feeds }

variable (feeds : Array Feed)

theorem withFeeds_note (e : Event) : (m.withFeeds feeds).note e = (m.note e).withFeeds feeds := by
  show (if m.listening then _ else _) = _
  unfold note
  split <;> rfl

theorem withFeeds_noteState (frame : FrameId) (state : String) :
    (Command.noteState frame state).run (m.withFeeds feeds) =
      ((), ((Command.noteState frame state).run m).2.withFeeds feeds) := by
  show ((), if m.config.traceSteps = true then
    (m.withFeeds feeds).note (.stepState m.tick frame state) else m.withFeeds feeds) = _
  rw [withFeeds_note]
  simp only [Command.run]
  split <;> rfl

theorem withFeeds_assign (scope : ScopeId) (name : String) (v : Value) :
    (m.withFeeds feeds).assign scope name v = (m.assign scope name v).withFeeds feeds := by
  have hscopes : (m.withFeeds feeds).scopes = m.scopes := rfl
  unfold assign
  rw [hscopes, withFeeds_note]
  split <;> rfl

theorem withFeeds_poll : (m.withFeeds feeds).poll = (m.poll.1, m.poll.2.withFeeds feeds) := by
  by_cases hwaits : 0 < m.countdown - 1
  · simp only [poll, withFeeds, hwaits, if_true]
  · cases hhook : m.hook with
    | none =>
      by_cases hset : m.interrupt = true
      · simp only [poll, withFeeds, hwaits, hhook, hset, if_true, if_false]
        exact Prod.ext rfl (withFeeds_note { m with
          tick := m.tick + 1, countdown := m.config.pollPeriod, interrupt := false
          hook := none } feeds _)
      · simp only [poll, withFeeds, hwaits, hhook, hset, if_false, Bool.false_eq_true]
    | some ask =>
      by_cases hset : (m.interrupt || ask (m.tick + 1)) = true
      · simp only [poll, withFeeds, hwaits, hhook, hset, if_true, if_false]
        exact Prod.ext rfl (withFeeds_note { m with
          tick := m.tick + 1, countdown := m.config.pollPeriod, interrupt := false
          hook := some ask, polled := m.polled.push (m.tick + 1) } feeds _)
      · simp only [poll, withFeeds, hwaits, hhook, hset, if_false, Bool.false_eq_true]

@[simp] theorem note_feeds (e : Event) : (m.note e).feeds = m.feeds := by
  obtain ⟨_, h⟩ := m.note_eq e
  rw [h]

theorem assign_feeds (scope : ScopeId) (name : String) (v : Value) :
    (m.assign scope name v).feeds = m.feeds := by
  obtain ⟨_, h⟩ := m.assign_eq scope name v
  rw [h]

theorem poll_feeds : m.poll.2.feeds = m.feeds := by
  obtain ⟨_, _, _, _, h⟩ := m.poll_eq
  rw [h]

theorem noteState_feeds (frame : FrameId) (state : String) :
    ((Command.noteState frame state).run m).2.feeds = m.feeds := by
  simp only [Command.run]
  split
  · exact m.note_feeds _
  · rfl

theorem updateFeed_note (f : Feed → Feed) (e : Event) :
    (m.updateFeed id f).note e = (m.note e).updateFeed id f := by
  rw [updateFeed, updateFeed, note_feeds]
  exact m.withFeeds_note _ e

theorem updateFeed_noteState (f : Feed → Feed) (frame : FrameId) (state : String) :
    (Command.noteState frame state).run (m.updateFeed id f) =
      ((), ((Command.noteState frame state).run m).2.updateFeed id f) := by
  rw [updateFeed, updateFeed, noteState_feeds]
  exact m.withFeeds_noteState _ frame state

theorem updateFeed_assign (f : Feed → Feed) (scope : ScopeId) (name : String) (v : Value) :
    (m.updateFeed id f).assign scope name v = (m.assign scope name v).updateFeed id f := by
  rw [updateFeed, updateFeed, assign_feeds]
  exact m.withFeeds_assign _ scope name v

theorem updateFeed_poll (f : Feed → Feed) :
    (m.updateFeed id f).poll = (m.poll.1, m.poll.2.updateFeed id f) := by
  rw [updateFeed, updateFeed, poll_feeds]
  exact m.withFeeds_poll _

theorem modify_push_feeds (h : id < m.feeds.size) (f : Feed → Feed) (feed : Feed) :
    (m.feeds.modify id f).push feed = (m.feeds.push feed).modify id f := by
  apply Array.ext_getElem?
  intro j
  rw [Array.getElem?_push, Array.getElem?_modify, Array.getElem?_modify, Array.getElem?_push,
    Array.size_modify]
  by_cases hj : j = m.feeds.size
  · subst hj
    have hne : id ≠ m.feeds.size := Nat.ne_of_lt h
    simp [hne]
  · simp [hj]

end Machine

namespace Outcome

variable {α : Type}

def seeSignal : Outcome α → Outcome (Except Signal α)
  | .done a => .done (.ok a)
  | .thrown s => .done (.error s)
  | .failed f => .failed f
  | .exhausted => .exhausted

def seeFault : Outcome α → Outcome (Except Fault α)
  | .done a => .done (.ok a)
  | .thrown s => .thrown s
  | .failed f => .done (.error f)
  | .exhausted => .exhausted

def leave (label : Option String) : Outcome α → Outcome α
  | .failed f => .failed (f.inCall? label)
  | o => o

end Outcome

namespace Eval

variable {α : Type}

theorem run_catchSignal (x : Eval α) (m : Machine) :
    x.catchSignal m = ((x m).1.seeSignal, (x m).2) := by
  simp only [catchSignal, run]
  rcases x.run m with ⟨_ | _ | _ | _, m'⟩ <;> rfl

theorem run_catchFault (x : Eval α) (m : Machine) :
    x.catchFault m = ((x m).1.seeFault, (x m).2) := by
  simp only [catchFault, run]
  rcases x.run m with ⟨_ | _ | _ | _, m'⟩ <;> rfl

theorem trace_catchSignal (x : Eval α) (m : Machine) : x.catchSignal.trace m = x.trace m := by
  simp only [catchSignal, trace]
  rcases x.run m with ⟨_ | _ | _ | _, m'⟩ <;> exact List.append_nil _

theorem trace_catchFault (x : Eval α) (m : Machine) : x.catchFault.trace m = x.trace m := by
  simp only [catchFault, trace]
  rcases x.run m with ⟨_ | _ | _ | _, m'⟩ <;> exact List.append_nil _

theorem run_inFrame {label : Option String} {body : FrameId → Eval α} {m : Machine}
    (h : ¬m.config.maxDepth ≤ m.depth) :
    (inFrame label body done) m = (((body m.nextFrame) (m.enter label)).1.leave label,
      ((body m.nextFrame) (m.enter label)).2.leave m.nextFrame) := by
  simp only [run, h, if_false]
  rcases (body m.nextFrame).run (m.enter label) with ⟨_ | _ | _ | _, m'⟩ <;> rfl

theorem run_inFrame_refused {label : Option String} {body : FrameId → Eval α} {m : Machine}
    (h : m.config.maxDepth ≤ m.depth) :
    (inFrame label body done) m = (.failed (.of (.stackOverflow m.depth)), m) := by
  simp only [run, h, if_true]

theorem trace_inFrame {label : Option String} {body : FrameId → Eval α} {m : Machine}
    (h : ¬m.config.maxDepth ≤ m.depth) :
    (inFrame label body done).trace m = .entered label m ::
      ((body m.nextFrame).trace (m.enter label) ++
        [.left m.nextFrame ((body m.nextFrame) (m.enter label)).2]) := by
  simp only [trace, h, if_false]
  rcases (body m.nextFrame).run (m.enter label) with ⟨_ | _ | _ | _, m'⟩ <;> rfl

end Eval

/-- What `x` does on `m`, `y` does on the machine with other units in the feed `id`, if these agree
with the units of `m` up to the first one that `x` leaves. -/
def Mirrors {α : Type} (id : FeedId) (units : List Value) (x y : Eval α) (m : Machine) : Prop :=
  AgreeUpTo (m.consumed id (x m).2) (m.feed id).units units →
    y (m.withUnits id units) =
      ((x m).1, (x m).2.withUnits id (units.drop (m.consumed id (x m).2)))

theorem Eval.run_units {α : Type} (x : Eval α) {m : Machine} {id : FeedId}
    (hid : id < m.feeds.size) :
    ((x m).2.feed id).units = (m.feed id).units.drop (m.consumed id (x m).2) :=
  List.suffix_iff_eq_drop.1 ((x.run_feeds m).suffix id hid)

theorem Machine.consumed_trans {m m' m'' : Machine} {id : FeedId} (hid : id < m.feeds.size)
    (h : FeedsShrink m m') (h' : FeedsShrink m' m'') :
    m.consumed id m'' = m.consumed id m' + m'.consumed id m'' := by
  have hle := h.units_le id hid
  have hle' := h'.units_le id (Nat.lt_of_lt_of_le hid h.size_le)
  unfold Machine.consumed
  omega

namespace Mirrors

variable {α β : Type} {id : FeedId} {units : List Value} {m : Machine} {x y : Eval α}

theorem of_quiet {o : Outcome α} {n : Machine} (hx : x m = (o, n))
    (hy : y (m.withUnits id units) = (o, n.withUnits id units))
    (hunits : n.units id = m.units id) : Mirrors id units x y m := by
  intro _
  have hnone : m.consumed id n = 0 := by
    rw [Machine.consumed, hunits, Nat.sub_self]
  rw [hy, hx, hnone, List.drop_zero]

theorem of_still {o : Outcome α} (hx : x m = (o, m))
    (hy : y (m.withUnits id units) = (o, m.withUnits id units)) : Mirrors id units x y m :=
  of_quiet hx hy rfl

theorem congr {x' y' : Eval α} (hx : x m = x' m)
    (hy : y (m.withUnits id units) = y' (m.withUnits id units)) (h : Mirrors id units x' y' m) :
    Mirrors id units x y m := by
  unfold Mirrors
  rw [hx, hy]
  exact h

theorem bind {f g : α → Eval β} (hid : id < m.feeds.size) (hx : Mirrors id units x y m)
    (hf : ∀ a m', x m = (.done a, m') →
      y (m.withUnits id units) = (.done a, m'.withUnits id (units.drop (m.consumed id m'))) →
      Mirrors id (units.drop (m.consumed id m')) (f a) (g a) m') :
    Mirrors id units (x >>= f) (y >>= g) m := by
  intro hagree
  have hshrink := x.run_feeds m
  have hunits := x.run_units hid
  have hall := Eval.run_bind x f m
  unfold Mirrors at hx
  rcases hrun : x m with ⟨a | s | e | _, m'⟩ <;> rw [hrun] at hall hshrink hunits hx <;>
    rw [hall] at hagree ⊢
  · -- what agrees as far as both parts go agrees as far as the first goes, and then the second
    have hsum := Machine.consumed_trans hid hshrink ((f a).run_feeds m')
    rw [hsum] at hagree ⊢
    have hy := hx (hagree.mono (Nat.le_add_right _ _))
    have hagree' := hagree.drop
    rw [← hunits] at hagree'
    rw [Eval.run_bind_of_done hy, hf a m' hrun hy hagree', List.drop_drop]
  all_goals
    rw [Eval.run_bind, hx hagree]

/-- An evaluation that only turns the outcome of another into something else. -/
theorem turned {turn : Outcome α → Outcome β} {x' y' : Eval β}
    (hx' : ∀ n, x' n = (turn (x n).1, (x n).2)) (hy' : ∀ n, y' n = (turn (y n).1, (y n).2))
    (h : Mirrors id units x y m) : Mirrors id units x' y' m := by
  intro hagree
  rw [hx'] at hagree ⊢
  rw [hy', h hagree]

theorem catchSignal (h : Mirrors id units x y m) :
    Mirrors id units x.catchSignal y.catchSignal m :=
  turned x.run_catchSignal y.run_catchSignal h

theorem catchFault (h : Mirrors id units x y m) :
    Mirrors id units x.catchFault y.catchFault m :=
  turned x.run_catchFault y.run_catchFault h

theorem inFrame {label : Option String} {body body' : FrameId → Eval α}
    (h : Mirrors id units (body m.nextFrame) (body' m.nextFrame) (m.enter label)) :
    Mirrors id units (.inFrame label body .done) (.inFrame label body' .done) m := by
  by_cases hroom : m.config.maxDepth ≤ m.depth
  · have hroom' : (m.withUnits id units).config.maxDepth ≤ (m.withUnits id units).depth := hroom
    refine of_still (o := .failed (.of (.stackOverflow m.depth))) ?_ ?_
    · simp only [Eval.run, hroom, if_true]
    · simp only [Eval.run, hroom', if_true]
      rfl
  · have hroom' : ¬(m.withUnits id units).config.maxDepth ≤ (m.withUnits id units).depth := hroom
    have henter : (m.withUnits id units).enter label = (m.enter label).withUnits id units := rfl
    intro hagree
    rw [Eval.run_inFrame hroom] at hagree ⊢
    rw [Eval.run_inFrame hroom', henter]
    have hbody := h hagree
    have hnext : (m.withUnits id units).nextFrame = m.nextFrame := rfl
    rw [hnext, hbody]
    rfl

theorem of_run {c : Command β}
    (hrun : c.run (m.withUnits id units) = ((c.run m).1, (c.run m).2.withUnits id units))
    (hfeeds : (c.run m).2.feeds = m.feeds) :
    Mirrors id units (Eval.command c) (Eval.command c) m := by
  refine of_quiet (Eval.run_command c m) ?_ ?_
  · rw [Eval.run_command, hrun]
  · rw [Machine.units, Machine.units, Machine.feed, Machine.feed, hfeeds]

/-- A command that looks at one feed, but not at its units. -/
theorem of_feed (c : Command β) (j : FeedId) (look : Feed → β)
    (hc : ∀ n : Machine, c.run n = (look (n.feed j), n))
    (hlook : ∀ (feed : Feed) us, look { feed with units := us } = look feed) :
    Mirrors id units (Eval.command c) (Eval.command c) m := by
  obtain ⟨us, hfeed⟩ := m.withUnits_feed id units j
  refine of_still (o := .done (look (m.feed j))) ?_ ?_
  · rw [Eval.run_command, hc]
  · rw [Eval.run_command, hc, hfeed, hlook]

theorem of_other (c : Command β) {j : FeedId} (hj : j ≠ id) (look : Feed → β)
    (hc : ∀ n : Machine, c.run n = (look (n.feed j), n)) :
    Mirrors id units (Eval.command c) (Eval.command c) m := by
  refine of_still (o := .done (look (m.feed j))) ?_ ?_
  · rw [Eval.run_command, hc]
  · rw [Eval.run_command, hc, m.withUnits_feed_ne id units hj]

theorem of_updateFeed (c : Command Unit) (j : FeedId) {f : Feed → Feed}
    (hc : ∀ n : Machine, c.run n = ((), n.updateFeed j f))
    (hf : ∀ (feed : Feed) us, f { feed with units := us } = { f feed with units := us })
    (hunits : ∀ feed, (f feed).units = feed.units) :
    Mirrors id units (Eval.command c) (Eval.command c) m := by
  refine of_quiet (o := .done ()) (n := m.updateFeed j f) ?_ ?_ (m.units_updateFeed j id hunits)
  · rw [Eval.run_command, hc]
  · rw [Eval.run_command, hc, m.withUnits_updateFeed id units j hf]

theorem peek (hid : id < m.feeds.size) (j : FeedId) :
    Mirrors id units (Eval.peek j) (Eval.peek j) m := by
  by_cases hj : j = id
  · subst hj
    intro hagree
    have hhead := hagree.head
    have hpeek : ((m.withUnits j units).feed j).peek = (m.feed j).peek := by
      rw [m.withUnits_feed_self j units hid]
      exact hhead.symm
    have hstill : Mirrors j units (Eval.peek j) (Eval.peek j) m := by
      refine of_still (o := .done (m.feed j).peek) rfl ?_
      rw [← hpeek]
      rfl
    exact hstill hagree
  · exact of_other _ hj Feed.peek fun _ => rfl

theorem advance (hid : id < m.feeds.size) (j : FeedId) :
    Mirrors id units (Eval.advance j) (Eval.advance j) m := by
  by_cases hj : j = id
  · subst hj
    intro hagree
    have hhead := hagree.head
    have hconsumed : m.consumed j (m.updateFeed j Feed.advance) =
        (m.feed j).units.length - ((m.feed j).units.length - 1) := by
      rw [Machine.consumed, m.units_advance]
      rfl
    show (Outcome.done (), (m.withUnits j units).updateFeed j Feed.advance) =
      (.done (), (m.updateFeed j Feed.advance).withUnits j
        (units.drop (m.consumed j (m.updateFeed j Feed.advance))))
    rw [hconsumed, Machine.withUnits, Machine.withUnits, Machine.updateFeed_updateFeed,
      Machine.updateFeed_updateFeed]
    refine congrArg _ (Machine.updateFeed_congr ?_)
    cases hus : (m.feed j).units with
    | nil =>
      rw [hus] at hhead
      obtain rfl : units = [] := List.head?_eq_none_iff.1 hhead.symm
      simp [Feed.advance, hus]
    | cons u us =>
      rw [hus] at hhead
      obtain ⟨vs, rfl⟩ : ∃ vs, units = u :: vs := List.head?_eq_some_iff.1 hhead.symm
      simp [Feed.advance, hus]
  · refine of_quiet (o := .done ()) (n := m.updateFeed j Feed.advance) rfl ?_ ?_
    · show (Outcome.done (), (m.withUnits id units).updateFeed j Feed.advance) = _
      rw [Machine.withUnits, Machine.updateFeed_comm m id (Ne.symm hj)]
      rfl
    · rw [Machine.units, Machine.feed_updateFeed, if_neg fun h => hj h.1]
      rfl

theorem newFeed (hid : id < m.feeds.size) (us : List Value) (scope : ScopeId) :
    Mirrors id units (Eval.newFeed us scope) (Eval.newFeed us scope) m := by
  have hpush := m.modify_push_feeds id hid (fun f => { f with units }) { units := us, scope }
  have hsize := m.withUnits_size id units
  refine of_quiet (o := .done m.feeds.size) (n := { m with
    feeds := m.feeds.push { units := us, scope } }) rfl ?_ ?_
  · show (Outcome.done (m.withUnits id units).feeds.size, { m.withUnits id units with
      feeds := (m.withUnits id units).feeds.push { units := us, scope } }) = _
    rw [hsize]
    simp only [Machine.withUnits, Machine.updateFeed, hpush]
  · rw [Machine.units, Machine.feed_eq, Array.getElem?_push_lt hid, Machine.units, Machine.feed_eq,
      Array.getElem?_eq_getElem hid]

end Mirrors

/-- Whether a command sees more of the feed `id` than its current unit. -/
def Command.LooksInto (id : FeedId) : {β : Type} → Command β → Prop
  | _, .feed j | _, .peekNext j | _, .unitsLeft j => j = id
  | _, _ => False

theorem Command.IsPlain.not_looksInto {β : Type} {c : Command β} (h : c.IsPlain) (id : FeedId) :
    ¬c.LooksInto id := by
  cases c with
  | feed j | peekNext j | unitsLeft j | lookback j => exact h.elim
  | _ => exact fun h => h

theorem Mirrors.command {β : Type} {id : FeedId} {units : List Value} {m : Machine} (c : Command β)
    (hid : id < m.feeds.size) (h : ¬c.LooksInto id) :
    Mirrors id units (Eval.command c) (Eval.command c) m := by
  cases c with
  | newFeed us scope => exact newFeed hid us scope
  | peek j => exact peek hid j
  | advance j => exact advance hid j
  | feed j => exact of_other _ h (fun f => f) fun _ => rfl
  | peekNext j => exact of_other _ h Feed.peekNext fun _ => rfl
  | unitsLeft j => exact of_other _ h (fun f => f.units.length) fun _ => rfl
  | scopeOf j => exact of_feed _ j Feed.scope (fun _ => rfl) fun _ _ => rfl
  | lookback j => exact of_feed _ j Feed.lookback (fun _ => rfl) fun _ _ => rfl
  | noLookahead j => exact of_feed _ j Feed.noLookahead (fun _ => rfl) fun _ _ => rfl
  | deferring j => exact of_feed _ j Feed.deferring (fun _ => rfl) fun _ _ => rfl
  | setNoLookahead j b => exact of_updateFeed _ j (fun _ => rfl) (fun _ _ => rfl) fun _ => rfl
  | setDeferring j b => exact of_updateFeed _ j (fun _ => rfl) (fun _ _ => rfl) fun _ => rfl
  | note e => exact of_run (congrArg _ (m.updateFeed_note id _ e)) (m.note_feeds e)
  | noteState frame state =>
    refine of_run (m.updateFeed_noteState id _ frame state) ?_
    simp only [Command.run]
    split
    · exact m.note_feeds _
    · rfl
  | assign scope name v =>
    exact of_run (congrArg _ (m.updateFeed_assign id _ scope name v)) (m.assign_feeds scope name v)
  | poll =>
    obtain ⟨_, _, _, _, hpoll⟩ := m.poll_eq
    refine of_run (m.updateFeed_poll id _) ?_
    show m.poll.2.feeds = m.feeds
    rw [hpoll]
  | _ => exact of_quiet rfl rfl rfl

end Homoicon
