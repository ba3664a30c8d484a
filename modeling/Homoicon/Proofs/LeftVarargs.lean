import Homoicon.Proofs.Presets
import Homoicon.Proofs.Reach
import Homoicon.Proofs.Specializing

/-!
# Varargs over a left operand

An enfixed action with a variadic first parameter gets its left operand as a varargs, over a feed of
its own with one unit.  The first value that is taken from it is the operand, of whatever kind, and
then it is at its tail.

The slot is checked against the declared types as it is filled, and what is checked is the varargs.
So the call is accepted only if the types, which are meant for the values that are taken, happen to
accept a varargs as well.
-/

namespace Homoicon

/-! ### One literal -/

namespace Stage

variable {S : Stage} {depth : Nat} {f : Feed} {ev : Evaluator} {frame : Frame} {unit v : Value}

theorem Finds.literalLast (hframe : frame.feed = S.feed) (hunit : Literal unit v)
    (hunits : f.units = [unit]) :
    S.Finds depth f (ev.evalStep frame) (S.Yields v)
      { f with units := [], lookback := some unit, noLookahead := false } := by
  have hclaim : S.Unclaiming f.peekNext := by
    rw [Feed.peekNext_cons hunits]
    exact ending_none.unclaiming
  apply Runs.literal hframe hunit hunits hclaim
  have hcloses : S.Gives depth { f with units := [], lookback := some unit, noLookahead := false }
      (postSwitch { frame with out := ⟨some v, false⟩, noLookahead := f.noLookahead })
      ({ frame with out := ⟨some v, false⟩, noLookahead := f.noLookahead }, .finished)
      { f with units := [], lookback := some unit, noLookahead := false } :=
    Gives.closes hframe ending_none
  apply Gives.drive (by simp) hcloses
  apply Gives.finish.mono
  rintro o g n ⟨_, rfl, rfl, rfl, rfl⟩
  exact ⟨_, rfl, ⟨rfl, hframe, rfl⟩, rfl, rfl⟩

theorem Gives.literalLast {patience nesting : Nat} {fulfilling : Bool} (hroom : depth < S.maxDepth)
    (hlimit : depth + 1 ≤ S.limit) (hunit : Literal unit v) (hunits : f.units = [unit]) :
    S.Gives depth f (Evaluator.evalExpression ⟨stepWithin patience (nesting + 1), patience⟩ S.feed
      fulfilling) (some v)
      { f with units := [], lookback := some unit, noLookahead := false } := by
  apply Gives.evalExpression hroom hlimit
  intro id
  apply Finds.stepToVisible rfl
  exact Finds.literalLast rfl hunit hunits

end Stage

/-! ### Taking the operand -/

/-- Code can be evaluated on the machine: there is room for a frame, nothing asks for a stop, and
every scope is made later than its parent. -/
structure Machine.Ready (m : Machine) : Prop where
  room : m.depth < m.config.maxDepth
  interrupt : m.interrupt = false
  hook : ∀ ask, m.hook = some ask → ∀ tick, ask tick = false
  parent_lt : ∀ s p, (m.scopes.scope s).parent = some p → p < s

/-- The one value `v` is still to be taken from a varargs. -/
structure Varargs.Offers (va : Varargs) (v : Value) (m : Machine) : Prop where
  placed : m.Placed va.feed
  units : (m.feed va.feed).units = [v.quotedIfNeeded]

namespace Varargs

variable {va : Varargs} {v : Value} {m : Machine}

theorem isTail_run (va : Varargs) (m : Machine) :
    va.isTail m = (.done (m.feed va.feed).atArgumentEnd, m) := by
  simp only [isTail, Eval.atArgumentEnd, Eval.run_bind, Eval.peek, Eval.run_command, Command.run,
    Feed.peek, Feed.atArgumentEnd, Feed.isEnd, Feed.atBarrier]
  cases (m.feed va.feed).units with
  | nil => rfl
  | cons unit rest => cases unit <;> rfl

theorem Offers.isTail (h : va.Offers v m) : va.isTail m = (.done false, m) := by
  have hunit := (Stage.literal_quotedIfNeeded v).ne_comma
  rw [isTail_run, Feed.atArgumentEnd_cons h.units hunit]

theorem Offers.takeFrom (h : va.Offers v m) (ready : m.Ready) (hpull : va.pull = .evaluate)
    (haccepts : va.param.types.accepts v = true) (patience nesting : Nat) :
    ∃ m', Evaluator.takeFrom ⟨stepWithin patience (nesting + 1), patience⟩ va m = (.done v, m') ∧
      va.isTail m' = (.done true, m') := by
  let S : Stage :=
    { feed := va.feed, scope := (m.feed va.feed).scope, known := fun _ => False
      names := fun _ => none, maxDepth := m.config.maxDepth, limit := m.depth + 1, counted := "" }
  have hshows : S.Shows m.depth (m.feed va.feed) m :=
    { depth_eq := rfl, depth_le := Nat.le_succ _, maxDepth := rfl, interrupt := ready.interrupt
      hook := ready.hook, feed_lt := h.placed.feed_lt, feed_eq := rfl, scope_eq := rfl
      scope_lt := h.placed.scope_lt, parent_lt := ready.parent_lt
      lookup_eq := fun _ hname => hname.elim }
  have hliteral := Stage.literal_quotedIfNeeded v
  have hopen : (m.feed va.feed).atArgumentEnd = false :=
    Feed.atArgumentEnd_cons h.units hliteral.ne_comma
  have htail : S.Gives m.depth (m.feed va.feed) va.isTail false (m.feed va.feed) := by
    rw [← hopen]
    exact Stage.Gives.atArgumentEnd
  have hpulled : S.Gives m.depth (m.feed va.feed)
      (Evaluator.pullValue ⟨stepWithin patience (nesting + 1), patience⟩ va) (some v)
      { m.feed va.feed with units := [], lookback := some v.quotedIfNeeded, noLookahead := false } := by
    unfold Evaluator.pullValue
    rw [hpull]
    exact Stage.Gives.literalLast ready.room (Nat.le_refl _) hliteral h.units
  have htaken : S.Gives m.depth (m.feed va.feed)
      (Evaluator.takeFrom ⟨stepWithin patience (nesting + 1), patience⟩ va) v
      { m.feed va.feed with units := [], lookback := some v.quotedIfNeeded, noLookahead := false } := by
    apply htail.andThen
    apply hpulled.andThen
    simp only [Option.getD_some, haccepts, Bool.not_true, Bool.and_false, if_false,
      Bool.false_eq_true]
    exact Stage.Gives.pure v
  obtain ⟨⟨g, hg, w, hdone, rfl, rfl, -⟩, -⟩ := htaken m hshows
  refine ⟨_, Prod.ext hdone rfl, ?_⟩
  have hfeed := hg.feed_eq
  rw [isTail_run, hfeed]
  rfl

theorem Offers.of_run {α : Type} {y : Eval α} {m' : Machine} {o : Outcome α} (h : va.Offers v m)
    (hy : y m = (o, m')) : va.Offers v m' ∨ va.isTail m' = (.done true, m') := by
  have hfeeds : Machine.FeedsShrink m m' := .of_run hy
  have hplaced := h.placed.run y
  rw [hy] at hplaced
  have hsuffix := hfeeds.suffix va.feed h.placed.feed_lt
  rw [h.units, List.suffix_cons_iff] at hsuffix
  rcases hsuffix with hunits | hunits
  · exact .inl ⟨hplaced, hunits⟩
  · right
    rw [isTail_run, Feed.atArgumentEnd, Feed.isEnd, List.suffix_nil.1 hunits]
    rfl

end Varargs

/-! ### The call -/

namespace Evaluator

variable {ev : Evaluator} {frame : Frame} {q : PendingCall} {left : Value} {i : Nat} {p : Param}
  {pull : Pull}

def afterLeft (left : Value) (m : Machine) : Machine :=
  { m with
    scopes := m.scopes.make none
    feeds := m.feeds.push { units := [left.quotedIfNeeded], scope := m.scopes.next }
    nextIdentity := m.nextIdentity + 1 }

/-- The varargs that a left operand comes as. -/
def leftOperand (p : Param) (label : String) (m : Machine) : Varargs :=
  { feed := m.feeds.size, pull := .evaluate, param := p, label, frame := none }

theorem leftOperand_offers (p : Param) (label : String) (left : Value) (m : Machine) :
    (leftOperand p label m).Offers left (afterLeft left m) := by
  have hfeed : (afterLeft left m).feed m.feeds.size =
      { units := [left.quotedIfNeeded], scope := m.scopes.next } := by
    rw [Machine.feed_eq, afterLeft, Array.getElem?_push_size, Option.getD_some]
  refine ⟨⟨?_, ?_⟩, ?_⟩
  · simp [leftOperand, afterLeft]
  · show ((afterLeft left m).feed m.feeds.size).scope < _
    rw [hfeed]
    simp [afterLeft, Scopes.make, Scopes.next]
  · show ((afterLeft left m).feed m.feeds.size).units = _
    rw [hfeed]

/-- The call with the varargs in the slot of its first argument. -/
def withLeft (q : PendingCall) (i : Nat) (p : Param) (m : Machine) : CallState :=
  (CallState.start q).fill i (.varargs m.nextIdentity (leftOperand p q.label m))

section Variadic

variable (hi : q.action.firstArgument? = some i) (hp : q.action.params[i]? = some p)
  (hrole : p.role = .variadic pull)
include hi hp hrole

theorem fillLeft_variadic (m : Machine) :
    fillLeft (CallState.start q) left m =
      if p.types.acceptsKind .varargs then (.done (withLeft q i p m), afterLeft left m)
      else (.failed (.of (.wrongType q.label p.name .varargs)), afterLeft left m) := by
  have hfirst : (CallState.start q).action.firstArgument? = some i := hi
  have hparam : (CallState.start q).action.params[i]? = some p := hp
  have hargument : leftArgument left p q.label m =
      (.done (.varargs m.nextIdentity (leftOperand p q.label m)), afterLeft left m) := by
    unfold leftArgument
    rw [hrole]
    rfl
  have hlabel : (CallState.start q).label = q.label := rfl
  unfold fillLeft
  simp only [hfirst, hparam, hlabel]
  rw [Eval.run_bind_of_done hargument]
  simp only [checkUnless, checkType, Value.isNull, Bool.false_and, if_false, Bool.false_eq_true,
    TypeSet.accepts, Value.kind]
  by_cases hvarargs : p.types.acceptsKind .varargs = true
  · simp only [hvarargs, if_true]
    rfl
  · simp only [hvarargs]
    rfl

end Variadic

/-- The call of an enfixed action whose first parameter is variadic is rejected if the types of the
parameter do not accept a varargs, whatever the left operand.  If they do, the operand is in its slot
as a varargs when the others are filled, and stays there.  Whatever runs then, as long as that is not
at its tail the next take gives the operand, if its types accept it, and after that it is. -/
theorem variadic_left (ev : Evaluator) (frame : Frame) (q : PendingCall) {left : Value} {i : Nat}
    {p : Param} {pull : Pull} (made : q.action.Made) (hleft : q.left = some left)
    (hi : q.action.firstArgument? = some i) (hp : q.action.params[i]? = some p)
    (hrole : p.role = .variadic pull) (haccepts : p.types.accepts left = true) (m : Machine) :
    (p.types.acceptsKind .varargs = false →
      (ev.fulfil frame q.left (CallState.start q) m).1 =
        .failed (.of (.wrongType q.label p.name .varargs))) ∧
    (p.types.acceptsKind .varargs = true →
      ev.fulfil frame q.left (CallState.start q) m =
        ev.fulfil frame none (withLeft q i p m) (afterLeft left m) ∧
      (∀ c m', ev.fulfil frame q.left (CallState.start q) m = (.done c, m') →
        c.slot i = .varargs m.nextIdentity (leftOperand p q.label m) ∧ c.checkSlot p i = .ok ()) ∧
      (leftOperand p q.label m).isTail (afterLeft left m) = (.done false, afterLeft left m) ∧
      ∀ {α : Type} (y : Eval α) (o : Outcome α) (m₁ : Machine), y (afterLeft left m) = (o, m₁) →
        (leftOperand p q.label m).isTail m₁ = (.done false, m₁) → m₁.Ready →
        ∀ patience nesting, ∃ m₂,
          takeFrom ⟨stepWithin patience (nesting + 1), patience⟩ (leftOperand p q.label m) m₁ =
              (.done left, m₂) ∧
            (leftOperand p q.label m).isTail m₂ = (.done true, m₂)) := by
  have hstart : fillLeft (CallState.start q) left m = _ := fillLeft_variadic hi hp hrole m
  have hoffers := leftOperand_offers p q.label left m
  rw [hleft]
  constructor
  · intro hvarargs
    rw [hvarargs, if_neg (by simp)] at hstart
    show ((fillLeft (CallState.start q) left >>= _) m).1 = _
    rw [Eval.run_bind, hstart]
  · intro hvarargs
    rw [if_pos hvarargs] at hstart
    have hrest : ev.fulfil frame (some left) (CallState.start q) m =
        ev.fulfil frame none (withLeft q i p m) (afterLeft left m) :=
      Eval.run_bind_of_done hstart
    refine ⟨hrest, ?_, hoffers.isTail, ?_⟩
    · intro c m' hc
      rw [hrest] at hc
      have hw := made.wellOwned
      have hfree := Action.firstArgument?_free hw hi hp
      have hargs := arguments_eq_nil hw hp (by simp [hrole])
      have hlt : i < (CallState.start q).slots.length := by
        rw [(CallState.start_of q).length]
        exact (List.getElem?_eq_some_iff.1 hp).1
      have hwith : (withLeft q i p m).Of q.action :=
        ⟨rfl, List.length_set.trans (CallState.start_of q).length⟩
      have hslot : c.slot i = (withLeft q i p m).slot i :=
        fulfil_keeps_slot hw hp hfree hargs hwith List.mem_cons_self (afterLeft left m) c m' hc
      refine ⟨hslot.trans (CallState.slot_fill_self _ hlt), ?_⟩
      simp only [CallState.checkSlot, hrole]
    -- whatever ran since has either left the value alone or taken it, and then the tail shows
    · intro α y o m₁ hy htail ready patience nesting
      rcases hoffers.of_run hy with hoffers | hended
      · exact hoffers.takeFrom ready rfl haccepts patience nesting
      · rw [hended] at htail
        cases htail

/-- A call `1 f` of an enfixed action with a variadic parameter of the given types. -/
def variadicInfix (types : List Value) : PendingCall :=
  { action :=
      { label := none
        params := (Spec.read [.word "x", .block (.tag "..." :: types)]).toOption.elim [] (·.params)
        signature := 0
        dispatcher := .returnTo 0
        exemplar := none
        enfixed := true
        deferral := .none
        description := none }
    label := "f", left := some (.integer 1) }

/-- With the types `[<...> integer!]` the call is rejected.  With `[<...> integer! varargs!]` the
first take gives 1. -/
theorem variadic_left_one : ∃ (ev : Evaluator) (m : Machine) (va : Varargs),
    (ev.fulfil { id := 0, feed := 0 } (some (.integer 1))
      (CallState.start (variadicInfix [.word "integer!"])) m).1 =
        .failed (.of (.wrongType "f" "x" .varargs)) ∧
    ∃ c m₁ m₂ id, ev.fulfil { id := 0, feed := 0 } (some (.integer 1))
        (CallState.start (variadicInfix [.word "integer!", .word "varargs!"])) m = (.done c, m₁) ∧
      c.slot 0 = .varargs id va ∧ ev.takeFrom va m₁ = (.done (.integer 1), m₂) ∧
      va.isTail m₂ = (.done true, m₂) := by
  let ev := Evaluator.ofConfig {}
  let m : Machine := { Machine.new {} with scopes := { cells := #[{}] } }
  let narrow : Param := { name := "x", role := .variadic .evaluate, types := { kinds := [.integer] } }
  let wide : Param := { narrow with types := { kinds := [.integer, .varargs] } }
  have made : ∀ types p, Spec.read [.word "x", .block (.tag "..." :: types)] = .ok { params := [p] } →
      p.role = .variadic .evaluate → (variadicInfix types).action.Made ∧
        (variadicInfix types).action.params = [p] ∧
        (variadicInfix types).action.firstArgument? = some 0 := by
    intro types p read hrole
    have hparams : (variadicInfix types).action.params = [p] := by
      simp only [variadicInfix, read]
      rfl
    have hfirst : (variadicInfix types).action.firstArgument? = some 0 := by
      simp [Action.firstArgument?, hparams, hrole]
    have base : Action.Made { (variadicInfix types).action with enfixed := false } :=
      .read read (.inl hparams) rfl rfl
    have enfix : Action.enfixWith { (variadicInfix types).action with enfixed := false } .none =
        .ok (variadicInfix types).action := ?_
    · exact ⟨.enfixed base enfix, hparams, hfirst⟩
    have hleading : (Action.firstParam?
        { (variadicInfix types).action with enfixed := false }) = some p := by
      show (variadicInfix types).action.firstArgument?.bind
        ((variadicInfix types).action.params[·]?) = _
      rw [hfirst, hparams]
      rfl
    rw [Action.enfixWith, hleading]
    simp only [Option.any_some, hrole]
    rfl
  obtain ⟨narrowMade, narrowParams, narrowFirst⟩ := made [.word "integer!"] narrow rfl rfl
  obtain ⟨wideMade, wideParams, wideFirst⟩ :=
    made [.word "integer!", .word "varargs!"] wide rfl rfl
  have hnarrow := (variadic_left ev { id := 0, feed := 0 } (variadicInfix [.word "integer!"])
    narrowMade rfl narrowFirst (congrArg (·[0]?) narrowParams) rfl (by decide) m).1 (by decide)
  let q := variadicInfix [.word "integer!", .word "varargs!"]
  obtain ⟨hrest, hslot, hopen, htake⟩ := (variadic_left ev { id := 0, feed := 0 } q wideMade rfl
    wideFirst (congrArg (·[0]?) wideParams) rfl (by decide) m).2 (by decide)
  -- there is no other slot to fill
  have hpasses : ev.fulfil { id := 0, feed := 0 } none (withLeft q 0 wide m)
      (afterLeft (.integer 1) m) =
      (.done (withLeft q 0 wide m), afterLeft (.integer 1) m) := rfl
  have hrun := hrest.trans hpasses
  have ready : (afterLeft (.integer 1) m).Ready := by
    refine ⟨by decide, rfl, fun ask h => ?_, fun s p h => ?_⟩
    · cases h
    · match s with
      | 0 => cases h
      | 1 => cases h
      | _ + 2 => cases h
  obtain ⟨m₂, htaken, htail⟩ := htake _ _ _ hpasses hopen ready defaultPatience
    (Config.maxDepth {})
  exact ⟨ev, m, _, hnarrow, _, _, m₂, _, hrun, (hslot _ _ hrun).1, htaken, htail⟩

end Evaluator

end Homoicon
