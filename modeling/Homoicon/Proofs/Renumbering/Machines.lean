import Homoicon.Proofs.Reach
import Homoicon.Proofs.Renumbering

/-!
# Runs under a renumbering

Two machines match if they hold matching values in the same places.  If the numbers that are still to
be handed out are renumbered as the counters of the machines say, then evaluations that are put
together alike end alike on them and leave machines that match again.  How far the numbers are looked
at is said by a third machine, a later one: what is handed out after it may be renumbered anyhow.
-/

namespace Homoicon

variable {ρ : Renumbering}

/-! ### Bindings and scopes -/

abbrev Bindings.Matches (ρ : Renumbering) : Bindings → Bindings → Prop :=
  List.Forall₂ fun e e' => e'.1 = e.1 ∧ e.2.Matches ρ e'.2

namespace Bindings.Matches

variable {b b' : Bindings}

theorem get? (h : Bindings.Matches ρ b b') (name : String) :
    Value.MaybeMatch ρ (b.get? name) (b'.get? name) := by
  induction h with
  | nil => exact .none
  | @cons e e' _ _ he _ ih =>
    obtain ⟨n, v⟩ := e
    obtain ⟨n', v'⟩ := e'
    obtain ⟨rfl, hv⟩ := he
    unfold Bindings.get?
    split
    · exact .some hv
    · exact ih

theorem put (h : Bindings.Matches ρ b b') (name : String) {v v' : Value} (hv : v.Matches ρ v') :
    Bindings.Matches ρ (b.put name v) (b'.put name v') := by
  induction h with
  | nil => exact .cons ⟨rfl, hv⟩ .nil
  | @cons e e' _ _ he hs ih =>
    obtain ⟨n, w⟩ := e
    obtain ⟨n', w'⟩ := e'
    obtain ⟨rfl, hw⟩ := he
    unfold Bindings.put
    split
    · exact .cons ⟨rfl, hv⟩ hs
    · exact .cons ⟨rfl, hw⟩ ih

end Bindings.Matches

structure Scope.Matches (ρ : Renumbering) (s s' : Scope) : Prop where
  bindings : Bindings.Matches ρ s.bindings s'.bindings
  parent : s'.parent = s.parent

structure Scopes.Matches (ρ : Renumbering) (h h' : Scopes) : Prop where
  next : h'.next = h.next
  scope : ∀ s, (h.scope s).Matches ρ (h'.scope s)

namespace Scopes.Matches

variable {h h' : Scopes}

theorem chain (hm : h.Matches ρ h') (s : ScopeId) : h'.chain s = h.chain s := by
  unfold Scopes.chain
  generalize s + 1 = fuel
  induction fuel generalizing s with
  | zero => rfl
  | succ fuel ih =>
    unfold Scopes.chainFrom
    rw [(hm.scope s).parent]
    cases (h.scope s).parent with
    | none => rfl
    | some p => exact congrArg (s :: ·) (ih p)

theorem get? (hm : h.Matches ρ h') (s : ScopeId) (name : String) :
    Value.MaybeMatch ρ ((h.bindings s).get? name) ((h'.bindings s).get? name) :=
  (hm.scope s).bindings.get? name

theorem lookup (hm : h.Matches ρ h') (s : ScopeId) (name : String) :
    Value.MaybeMatch ρ (h.lookup s name) (h'.lookup s name) := by
  unfold Scopes.lookup
  rw [hm.chain]
  induction h.chain s with
  | nil => exact .none
  | cons t rest ih =>
    have hget := hm.get? t name
    rw [List.findSome?_cons, List.findSome?_cons]
    generalize (h.bindings t).get? name = o, (h'.bindings t).get? name = o' at hget
    cases hget with
    | none => exact ih
    | some hv => exact .some hv

theorem binder? (hm : h.Matches ρ h') (s : ScopeId) (name : String) :
    h'.binder? s name = h.binder? s name := by
  unfold Scopes.binder?
  rw [hm.chain]
  refine congrArg (List.find? · _) (funext fun t => ?_)
  exact rel_isSome (hm.get? t name)

theorem define (hm : h.Matches ρ h') (s : ScopeId) (name : String) {v v' : Value}
    (hv : v.Matches ρ v') : (h.define s name v).Matches ρ (h'.define s name v') := by
  refine ⟨by rw [next_define, next_define, hm.next], fun t => ?_⟩
  rw [scope_define, scope_define, hm.next]
  split
  · exact ⟨(hm.scope t).bindings.put name hv, (hm.scope t).parent⟩
  · exact hm.scope t

theorem assign (hm : h.Matches ρ h') (s : ScopeId) (name : String) {v v' : Value}
    (hv : v.Matches ρ v') : (h.assign s name v).Matches ρ (h'.assign s name v') := by
  unfold Scopes.assign
  rw [hm.binder?]
  exact hm.define _ name hv

theorem make (hm : h.Matches ρ h') (parent : Option ScopeId) :
    (h.make parent).Matches ρ (h'.make parent) := by
  refine ⟨?_, fun t => ?_⟩
  · have hnext := hm.next
    simp only [Scopes.next, Scopes.make, Array.size_push] at hnext ⊢
    rw [hnext]
  · rw [scope_make, scope_make, hm.next]
    split
    · exact ⟨.nil, rfl⟩
    · exact hm.scope t

end Scopes.Matches

/-! ### Feeds -/

structure Feed.Matches (ρ : Renumbering) (f f' : Feed) : Prop where
  units : Value.AllMatch ρ f.units f'.units
  scope : f'.scope = f.scope
  lookback : Value.MaybeMatch ρ f.lookback f'.lookback
  noLookahead : f'.noLookahead = f.noLookahead
  deferring : f'.deferring = f.deferring

namespace Feed.Matches

variable {f f' : Feed}

theorem peek (h : f.Matches ρ f') : Value.MaybeMatch ρ f.peek f'.peek := by
  have hunits := rel_getElem? h.units 0
  rwa [← List.head?_eq_getElem?, ← List.head?_eq_getElem?] at hunits

theorem peekNext (h : f.Matches ρ f') : Value.MaybeMatch ρ f.peekNext f'.peekNext :=
  rel_getElem? h.units 1

theorem atArgumentEnd (h : f.Matches ρ f') : f'.atArgumentEnd = f.atArgumentEnd := by
  have hunits := h.units
  unfold Feed.atArgumentEnd Feed.isEnd Feed.atBarrier
  generalize f.units = units, f'.units = units' at hunits
  cases hunits with
  | nil => rfl
  | cons hunit _ => cases hunit <;> rfl

theorem advance (h : f.Matches ρ f') : f.advance.Matches ρ f'.advance := by
  obtain ⟨hunits, hscope, hlookback, hlook, hdefer⟩ := h
  unfold Feed.advance
  generalize hu : f.units = units, hu' : f'.units = units' at hunits
  cases hunits with
  | nil => exact ⟨by rw [hu, hu']; exact .nil, hscope, hlookback, hlook, hdefer⟩
  | cons hunit hrest => exact ⟨hrest, hscope, .some hunit, hlook, hdefer⟩

end Feed.Matches

/-! ### Machines -/

structure Machine.Matches (ρ : Renumbering) (m m' : Machine) : Prop where
  config : m'.config = m.config
  tick : m'.tick = m.tick
  countdown : m'.countdown = m.countdown
  interrupt : m'.interrupt = m.interrupt
  hook : m'.hook = m.hook
  polled : m'.polled = m.polled
  labels : m'.stack.map (·.label) = m.stack.map (·.label)
  scopes : m.scopes.Matches ρ m'.scopes
  size : m'.feeds.size = m.feeds.size
  feeds : ∀ id, (m.feed id).Matches ρ (m'.feed id)
  snapshots : List.Forall₂ (fun e e' => e'.1 = ρ.frame e.1 ∧ Bindings.Matches ρ e.2 e'.2)
    m.snapshots m'.snapshots
  printed : ρ.Alike m.printed m'.printed

namespace Machine

/-- No more numbers have been handed out than on the other machine. -/
def Precedes (m e : Machine) : Prop :=
  m.nextFrame ≤ e.nextFrame ∧ m.nextIdentity ≤ e.nextIdentity

theorem Precedes.trans {m₁ m₂ m₃ : Machine} (h : m₁.Precedes m₂) (h' : m₂.Precedes m₃) :
    m₁.Precedes m₃ :=
  ⟨Nat.le_trans h.1 h'.1, Nat.le_trans h.2 h'.2⟩

namespace Matches

variable {m m' : Machine}

theorem depth (h : m.Matches ρ m') : m'.depth = m.depth := by
  have hlength := congrArg List.length h.labels
  rwa [List.length_map, List.length_map] at hlength

theorem backtrace (h : m.Matches ρ m') : m'.backtrace = m.backtrace := by
  have hlabels : ∀ m : Machine, m.backtrace = ((m.stack.map (·.label)).filterMap id).reverse := by
    intro m
    rw [Machine.backtrace, List.filterMap_map]
    rfl
  rw [hlabels, hlabels, h.labels]

theorem frameArgument? (h : m.Matches ρ m') (id : FrameId) (name : String) :
    Value.MaybeMatch ρ (m.frameArgument? id name) (m'.frameArgument? (ρ.frame id) name) := by
  have hsnapshots := h.snapshots
  unfold Machine.frameArgument?
  generalize m.snapshots = s, m'.snapshots = s' at hsnapshots
  induction hsnapshots with
  | nil => exact .none
  | @cons e e' _ _ he _ ih =>
    have hsame : (e'.1 == ρ.frame id) = (e.1 == id) := by
      rw [he.1]
      exact Bool.eq_iff_iff.2 (by simp [ρ.frame_injective.eq_iff])
    rw [List.find?_cons, List.find?_cons, hsame]
    split
    · exact he.2.get? name
    · exact ih

theorem updateFeed (h : m.Matches ρ m') (id : FeedId) {f f' : Feed → Feed}
    (hf : ∀ {a b : Feed}, a.Matches ρ b → (f a).Matches ρ (f' b)) :
    (m.updateFeed id f).Matches ρ (m'.updateFeed id f') := by
  refine { h with size := ?_, feeds := fun j => ?_ }
  · simp only [Machine.updateFeed, Array.size_modify, h.size]
  · rw [feed_updateFeed, feed_updateFeed, h.size]
    split
    · exact hf (h.feeds j)
    · exact h.feeds j

theorem newFeed (h : m.Matches ρ m') {units units' : List Value} (scope : ScopeId)
    (hu : Value.AllMatch ρ units units') :
    Machine.Matches ρ { m with feeds := m.feeds.push { units, scope } }
      { m' with feeds := m'.feeds.push { units := units', scope } } := by
  refine { h with size := ?_, feeds := fun id => ?_ }
  · simp only [Array.size_push, h.size]
  · have hold := h.feeds id
    rw [Machine.feed_eq, Machine.feed_eq] at hold ⊢
    simp only [Array.getElem?_push, h.size]
    split
    · exact ⟨hu, rfl, .none, rfl, rfl⟩
    · exact hold

theorem journal (h : m.Matches ρ m') (j j' : Array Event) :
    Machine.Matches ρ { m with journal := j } { m' with journal := j' } := { h with }

theorem note (h : m.Matches ρ m') (e e' : Event) : (m.note e).Matches ρ (m'.note e') := by
  obtain ⟨j, hj⟩ := m.note_eq e
  obtain ⟨j', hj'⟩ := m'.note_eq e'
  rw [hj, hj']
  exact h.journal j j'

theorem poll (h : m.Matches ρ m') : m'.poll.1 = m.poll.1 ∧ m.poll.2.Matches ρ m'.poll.2 := by
  have hclock : m'.poll.1 = m.poll.1 ∧ m'.poll.2.countdown = m.poll.2.countdown ∧
      m'.poll.2.interrupt = m.poll.2.interrupt ∧ m'.poll.2.polled = m.poll.2.polled := by
    have hnote : ∀ (n : Machine) (e : Event), (n.note e).countdown = n.countdown ∧
        (n.note e).interrupt = n.interrupt ∧ (n.note e).polled = n.polled := by
      intro n e
      obtain ⟨_, hj⟩ := n.note_eq e
      rw [hj]
      exact ⟨rfl, rfl, rfl⟩
    unfold Machine.poll
    rw [h.countdown, h.config, h.tick, h.hook, h.interrupt, h.polled]
    dsimp only
    split
    · exact ⟨rfl, rfl, rfl, rfl⟩
    · cases m.hook with
      | none =>
        dsimp only
        split
        · exact ⟨rfl, by rw [(hnote _ _).1, (hnote _ _).1], by rw [(hnote _ _).2.1, (hnote _ _).2.1],
            by rw [(hnote _ _).2.2, (hnote _ _).2.2]⟩
        · exact ⟨rfl, rfl, rfl, rfl⟩
      | some ask =>
        dsimp only
        split
        · exact ⟨rfl, by rw [(hnote _ _).1, (hnote _ _).1], by rw [(hnote _ _).2.1, (hnote _ _).2.1],
            by rw [(hnote _ _).2.2, (hnote _ _).2.2]⟩
        · exact ⟨rfl, rfl, rfl, rfl⟩
  obtain ⟨hsignal, hcountdown, hinterrupt, hpolled⟩ := hclock
  refine ⟨hsignal, ?_⟩
  obtain ⟨_, _, _, _, hpoll⟩ := m.poll_eq
  obtain ⟨_, _, _, _, hpoll'⟩ := m'.poll_eq
  rw [hpoll, hpoll'] at hcountdown hinterrupt hpolled
  rw [hpoll, hpoll']
  exact { h with
    tick := congrArg (· + 1) h.tick
    countdown := hcountdown
    interrupt := hinterrupt
    polled := hpolled }

end Matches

end Machine

end Homoicon
