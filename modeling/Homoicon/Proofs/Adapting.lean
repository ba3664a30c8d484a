import Homoicon.Evaluate.Step
import Homoicon.Proofs.Mirror
import Homoicon.Proofs.Naming
import Homoicon.Proofs.Reach
import Homoicon.Proofs.Redoing

/-!
# Adaptations that change nothing

When the slots of a call are filled, they pass the second check as well: what one check excuses the
other one excuses.  The words of a prelude stand for the slots, one word for one slot.  So an empty
prelude leaves every slot as it is, and the adapted action goes on with the slots that were filled.
-/

namespace Homoicon

/-! ### The two checks -/

/-- What a slot may hold when it was filled passes the second check. -/
theorem CallState.checkSlot_of_holds {c : CallState} {p : Param} {i : Nat}
    (h : p.Holds (c.slot i)) : c.checkSlot p i = .ok () := by
  have checked : (p.types.accepts (c.slot i) = true ∨ c.slot i = .null ∧
      (p.types.endable = true ∨ (p.role = .hardQuote ∧ p.types.skippable = true) ∨
        p.owner.isSome = true)) → checkUnless p.mayBeAbsent c.label p (c.slot i) = .ok () := by
    rintro (haccepts | ⟨hnull, habsent⟩)
    · unfold checkUnless checkType
      rw [haccepts]
      split <;> rfl
    · have hexcused : p.mayBeAbsent = true := by
        unfold Param.mayBeAbsent
        rcases habsent with hend | ⟨-, hskip⟩ | howned
        · simp [hend]
        · simp [hskip]
        · simp [howned]
      unfold checkUnless
      rw [hnull, hexcused]
      rfl
  unfold Param.Holds at h
  unfold checkSlot
  split at h <;> rename_i hrole <;> simp only [hrole]
  · exact checked h
  · exact checked h
  · exact checked h
  · exact checked h

theorem CallState.Fulfilled.checkAll {c : CallState} (h : c.Fulfilled) : c.checkAll = .ok () :=
  CallState.checkAll_eq_ok.2 fun i p hp => CallState.checkSlot_of_holds (h.holds i p hp)

/-! ### Words for slots -/

/-- Each name stands for what it stood for before, if no bound parameter has it, and else for the
slot of one that has.  Other scopes stay as they are. -/
theorem bindParams_run {a : Action} {s : ScopeId} (entries : List (Nat × Param × Value))
    {m : Machine} (hs : s < m.scopes.next) : ∃ scopes,
      bindParams a s entries m = (.done (), { m with scopes }) ∧
      (∀ t, t ≠ s → scopes.scope t = m.scopes.scope t) ∧ ∀ name,
        ((∀ e ∈ entries, a.bindsWord e.1 = true → e.2.1.name ≠ name) ∧
          (scopes.bindings s).get? name = (m.scopes.bindings s).get? name) ∨
        ∃ e ∈ entries, a.bindsWord e.1 = true ∧ e.2.1.name = name ∧
          (scopes.bindings s).get? name = some e.2.2 := by
  induction entries generalizing m with
  | nil => exact ⟨m.scopes, rfl, fun _ _ => rfl, fun name => .inl ⟨by simp, rfl⟩⟩
  | cons e rest ih =>
    obtain ⟨i, p, v⟩ := e
    cases hword : a.bindsWord i with
    | false =>
      obtain ⟨scopes, hrun, hothers, hnames⟩ := ih hs
      refine ⟨scopes, ?_, hothers, fun name => ?_⟩
      · unfold bindParams
        rw [hword]
        exact hrun
      · rcases hnames name with ⟨hnone, hsame⟩ | ⟨e, he, hbound⟩
        · refine .inl ⟨List.forall_mem_cons.2 ⟨fun h => ?_, hnone⟩, hsame⟩
          rw [hword] at h
          cases h
        · exact .inr ⟨e, List.mem_cons_of_mem _ he, hbound⟩
    | true =>
      have hs' : s < (m.scopes.define s p.name v).next := by rwa [Scopes.next_define]
      obtain ⟨scopes, hrun, hothers, hnames⟩ :=
        ih (m := { m with scopes := m.scopes.define s p.name v }) hs'
      refine ⟨scopes, ?_, fun t ht => ?_, fun name => ?_⟩
      · unfold bindParams
        rw [hword]
        exact hrun
      · rw [hothers t ht, Scopes.scope_define, if_neg fun h => ht h.1.symm]
      · rcases hnames name with ⟨hnone, hsame⟩ | ⟨e, he, hbound⟩
        · rw [Scopes.get?_define_self hs] at hsame
          by_cases hname : name = p.name
          · rw [if_pos hname] at hsame
            exact .inr ⟨(i, p, v), List.mem_cons_self, hword, hname.symm, hsame⟩
          · rw [if_neg hname] at hsame
            exact .inl ⟨List.forall_mem_cons.2 ⟨fun _ => Ne.symm hname, hnone⟩, hsame⟩
        · exact .inr ⟨e, List.mem_cons_of_mem _ he, hbound⟩

theorem mem_wordEntries {c : CallState} {e : Nat × Param × Value} :
    e ∈ (c.action.params.zip c.slots).zipIdx.map (fun (e, i) => (i, e.1, e.2)) ↔
      c.action.params[e.1]? = some e.2.1 ∧ c.slots[e.1]? = some e.2.2 := by
  obtain ⟨i, p, v⟩ := e
  rw [List.mem_map]
  constructor
  · rintro ⟨⟨⟨p', v'⟩, i'⟩, hmem, he⟩
    cases he
    exact List.getElem?_zip_eq_some.1 (List.mem_zipIdx_iff_getElem?.1 hmem)
  · rintro ⟨hp, hv⟩
    exact ⟨((p, v), i), List.mem_zipIdx_iff_getElem?.2 (List.getElem?_zip_eq_some.2 ⟨hp, hv⟩), rfl⟩

/-- In the scope of a body each word that stands for a parameter has the value of its slot. -/
theorem bodyScope_run {c : CallState} (hn : Named c.action.params)
    (hlength : c.slots.length = c.action.params.length) (s : ScopeId) (m : Machine) :
    ∃ inner scopes, bodyScope c s m = (.done inner, { m with scopes }) ∧
      (∀ t < m.scopes.next, scopes.scope t = m.scopes.scope t) ∧
      ∀ i p, c.action.params[i]? = some p → c.action.bindsWord i = true →
        scopes.lookup inner p.name = some (c.slot i) := by
  have hs : m.scopes.next < (m.scopes.make (some s)).next := by
    simp [Scopes.next, Scopes.make]
  obtain ⟨scopes, hrun, hothers, hnames⟩ := bindParams_run (a := c.action)
    ((c.action.params.zip c.slots).zipIdx.map fun (e, i) => (i, e.1, e.2))
    (m := { m with scopes := m.scopes.make (some s) }) hs
  refine ⟨m.scopes.next, scopes, ?_, fun t ht => ?_, fun i p hp hword =>
    Scopes.lookup_of_binding ?_⟩
  · have made : Eval.newScope (some s) m =
      (.done m.scopes.next, { m with scopes := m.scopes.make (some s) }) := rfl
    unfold bodyScope
    rw [Eval.run_bind_of_done made, Eval.run_bind_of_done hrun]
    rfl
  · rw [hothers t (Nat.ne_of_lt ht), Scopes.scope_make, if_neg (Nat.ne_of_lt ht)]
  · have hlt : i < c.slots.length := by
      rw [hlength]
      exact (List.getElem?_eq_some_iff.1 hp).1
    have hslot : c.slots[i]? = some (c.slot i) := by
      rw [CallState.slot, List.getElem?_eq_getElem hlt, Option.getD_some]
    rcases hnames p.name with ⟨hnone, -⟩ | ⟨⟨j, q, v⟩, he, hbound, hname, hv⟩
    · exact absurd rfl (hnone (i, p, c.slot i) (mem_wordEntries.2 ⟨hp, hslot⟩) hword)
    · obtain ⟨hq, hvj⟩ := mem_wordEntries.1 he
      obtain rfl := Action.index_eq_of_word hn hq hp hbound hword hname
      rw [hv]
      exact hvj.symm.trans hslot

theorem CallState.refill_self {c : CallState} {i : Nat} {v : Value} (h : i < c.slots.length)
    (hv : v = c.slot i) : c.refill i v = c := by
  have hset : c.slots.set i v = c.slots := by
    rw [hv, CallState.slot, List.getElem?_eq_getElem h, Option.getD_some, List.set_getElem_self]
  unfold refill
  rw [hset]

theorem refillFrom_self {s : ScopeId} {c : CallState} {m : Machine} {entries : List (Param × Nat)}
    (hlength : ∀ e ∈ entries, e.2 < c.slots.length)
    (hwords : ∀ e ∈ entries, c.action.isSpecializable e.1 e.2 = true →
      m.lookup s e.1.name = some (c.slot e.2)) :
    refillFrom s entries c m = (.done c, m) := by
  induction entries with
  | nil => rfl
  | cons e rest ih =>
    obtain ⟨p, i⟩ := e
    have hrest := ih (fun e he => hlength e (List.mem_cons_of_mem _ he))
      (fun e he => hwords e (List.mem_cons_of_mem _ he))
    unfold refillFrom
    split
    · rename_i hspecializable
      have look : Eval.lookup s p.name m = (.done (some (c.slot i)), m) := by
        rw [← hwords (p, i) List.mem_cons_self hspecializable]
        rfl
      rw [Eval.run_bind_of_done look]
      have hlt : i < c.slots.length := hlength (p, i) List.mem_cons_self
      simp only [CallState.refill_self hlt rfl]
      exact hrest
    · exact hrest

/-- The machine after a run of no units in a scope: a feed was made, and a frame was entered and
left. -/
def Machine.afterNothing (m : Machine) (s : ScopeId) : Machine :=
  { m with feeds := m.feeds.push { units := [], scope := s }, nextFrame := m.nextFrame + 1 }

/-- What an empty prelude leaves as it was.  It takes no step and prints nothing, no frame stays
behind, and the feeds and scopes that were there are as they were. -/
structure Machine.Idle (m m' : Machine) : Prop where
  config : m'.config = m.config
  stack : m'.stack = m.stack
  tick : m'.tick = m.tick
  printed : m'.printed = m.printed
  snapshots : m'.snapshots = m.snapshots
  feed : ∀ id < m.feeds.size, m'.feed id = m.feed id
  scope : ∀ t < m.scopes.next, m'.scopes.scope t = m.scopes.scope t

theorem Machine.Idle.note {m m' : Machine} (h : m.Idle m') (e : Event) : m.Idle (m'.note e) := by
  obtain ⟨_, hnote⟩ := m'.note_eq e
  rw [hnote]
  exact ⟨h.config, h.stack, h.tick, h.printed, h.snapshots, h.feed, h.scope⟩

namespace Evaluator

variable {ev : Evaluator} {frame : Frame}

theorem runUnits_nil {s : ScopeId} {m : Machine} (hdepth : m.depth < m.config.maxDepth) :
    ev.runUnits [] s m = (.done none, m.afterNothing s) := by
  let m₁ : Machine := { m with feeds := m.feeds.push { units := [], scope := s } }
  have hfeed : Eval.newFeed [] s m = (.done m.feeds.size, m₁) := rfl
  have hempty : m₁.feed m.feeds.size = { units := [], scope := s } := by
    simp [m₁, Machine.feed]
  have hbody : (do
      let units ← Eval.unitsLeft m.feeds.size
      let frame ← ev.stepToEnd units { id := m.nextFrame, feed := m.feeds.size }
      return frame.out.last : Eval (Option Value)) (m₁.enter none) =
        (.done none, m₁.enter none) := by
    have hunits : Eval.unitsLeft m.feeds.size (m₁.enter none) = (.done 0, m₁.enter none) := by
      show (Outcome.done (m₁.feed m.feeds.size).units.length, m₁.enter none) = _
      rw [hempty]
      rfl
    have hpeek : Eval.peek m.feeds.size (m₁.enter none) = (.done none, m₁.enter none) := by
      show (Outcome.done (m₁.feed m.feeds.size).peek, m₁.enter none) = _
      rw [hempty]
      rfl
    rw [Eval.run_bind_of_done hunits]
    unfold stepToEnd Eval.atEnd
    rw [Eval.run_bind, Eval.run_bind, Eval.run_bind_of_done hpeek]
    rfl
  have hroom : ¬m₁.config.maxDepth ≤ m₁.depth := Nat.not_le.2 hdepth
  have hbelow : Machine.stackBelow m.nextFrame (⟨m.nextFrame, none⟩ :: m.stack) = m.stack :=
    Machine.stackBelow_cons ⟨m.nextFrame, none⟩ m.stack
  unfold runUnits
  rw [Eval.run_bind_of_done hfeed]
  unfold runFeed withFrame
  rw [Eval.run_inFrame hroom]
  simp only [show m₁.nextFrame = m.nextFrame from rfl, hbody]
  show (Outcome.done none, (m₁.enter none).leave m.nextFrame) = _
  unfold Machine.leave Machine.enter Machine.afterNothing
  simp only [m₁, hbelow]

theorem runPrelude_nil {c : CallState} (hn : Named c.action.params)
    (hlength : c.slots.length = c.action.params.length) (s : ScopeId) {m : Machine}
    (hdepth : m.depth < m.config.maxDepth) :
    ∃ m', ev.runPrelude c [] s m = (.done c, m') ∧ m.Idle m' := by
  obtain ⟨inner, scopes, hscope, hothers, hwords⟩ := bodyScope_run hn hlength s m
  let m₁ : Machine := { m with scopes }
  have hunits : ev.runUnits [] inner m₁ = (.done none, m₁.afterNothing inner) :=
    runUnits_nil hdepth
  have hfeed : ∀ id < m.feeds.size, (m₁.afterNothing inner).feed id = m.feed id := by
    intro id hid
    unfold Machine.feed Machine.afterNothing
    simp only [m₁, Array.getD_eq_getD_getElem?, Array.getElem?_push_lt hid,
      Array.getElem?_eq_getElem hid]
  refine ⟨m₁.afterNothing inner, ?_, rfl, rfl, rfl, rfl, rfl, hfeed, hothers⟩
  unfold runPrelude
  rw [Eval.run_bind_of_done hscope, Eval.run_bind_of_done hunits]
  refine refillFrom_self (fun e he => ?_) fun e he hspecializable => ?_
  · rw [hlength]
    exact (List.getElem?_eq_some_iff.1 (List.mem_zipIdx_iff_getElem?.1 he)).1
  · have hword : c.action.bindsWord e.2 = true := (Bool.and_eq_true_iff.1 hspecializable).2
    exact hwords e.2 e.1 (List.mem_zipIdx_iff_getElem?.1 he) hword

end Evaluator

/-- `b` is an adaptation of `a` and was made from it by `adapt`; it may have been specialized,
enfixed and relabelled since. -/
structure Action.Adapts (b : Action) (prelude : List Value) (s : ScopeId) (a : Action) : Prop where
  dispatcher : b.dispatcher = .adapted prelude s a
  params : b.params = a.params
  signature : b.signature = a.signature

theorem Action.adapts_adapted (a : Action) (prelude : List Value) (s : ScopeId) :
    Adapts { a with
      label := none, enfixed := false, deferral := .none
      dispatcher := .adapted prelude s a } prelude s a :=
  ⟨rfl, rfl, rfl⟩

namespace Evaluator

/-- The slots of a call pass the second check as soon as they are filled.  If the action is an
adaptation with an empty prelude, and there is room for one more frame, the call goes on as the
adapted action with the very slots that were filled. -/
theorem fulfil_adapted (ev : Evaluator) (frame : Frame) (p : PendingCall) (m m' : Machine)
    (c : CallState) (made : p.action.Made)
    (enfixed : p.left.isSome = true → p.action.enfixed = true)
    (h : ev.fulfil frame p.left (CallState.start p) m = (.done c, m')) :
    c.checkAll = .ok () ∧
      ∀ s a, p.action.Adapts [] s a → m'.depth < m'.config.maxDepth →
        ∃ m'', m'.Idle m'' ∧
          ev.redo? frame (c, m') = some (true, { c with action := a }, m'') ∧
          ∀ fuel, ev.runFilled frame (fuel + 1) c m' =
            ev.runFilled frame fuel { c with action := a } m'' := by
  obtain ⟨haction, hfulfilled⟩ := fulfil_returns made enfixed m c m' h
  refine ⟨hfulfilled.checkAll, fun s a hadapts hdepth => ?_⟩
  obtain ⟨hdispatcher, hparams, hsignature⟩ := hadapts
  rw [← haction] at hdispatcher hparams hsignature
  have hn : Named c.action.params := by
    rw [haction]
    exact made.named
  obtain ⟨m₁, hprelude, hidle⟩ : ∃ m₁, ev.runPrelude c [] s m' = (.done c, m₁) ∧ m'.Idle m₁ :=
    runPrelude_nil hn hfulfilled.length s hdepth
  have hrun : ev.runDispatcher frame c m' = (.done (.redo a true, c), m₁) := by
    unfold runDispatcher
    rw [hdispatcher]
    exact Eval.run_bind_of_done hprelude
  have hcheck : CallState.checkAll { c with action := a } = .ok () := by
    rw [CallState.checkAll_eq_ok]
    intro i q hq
    have hslot := CallState.checkAll_eq_ok.1 hfulfilled.checkAll i q
    rw [hparams] at hslot
    exact hslot hq
  have hredo : ev.redo? frame (c, m') = some (true, { c with action := a },
      m₁.note (.redone c.label true)) :=
    redo?_eq_some.2 ⟨a, c, m₁, hrun, hsignature, fun _ => hcheck, rfl⟩
  exact ⟨_, hidle.note _, hredo, runFilled_of_redo hredo⟩

/-- A call `f/r 1 2` of an adaptation of `refinedAction` with an empty prelude. -/
def adaptedCall : PendingCall :=
  { action :=
      { refinedAction with
        label := none, enfixed := false, deferral := .none
        dispatcher := .adapted [] 0 refinedAction }
    label := "f"
    requests := ["r"] }

theorem fulfil_adapted_refined : ∃ (ev : Evaluator) (frame : Frame) (c : CallState)
    (m m' : Machine), c.slots.map Value.mold = ["1", "/r", "2"] ∧ c.checkAll = .ok () ∧
      ev.redo? frame (c, m) = some (true, { c with action := refinedAction }, m') := by
  let p := adaptedCall
  let frame : Frame := { id := 0, feed := 0 }
  let m : Machine :=
    { Machine.new {} with
      scopes := { cells := #[{}] }
      feeds := #[{ units := [.integer 1, .integer 2], scope := 0 }] }
  let ev := Evaluator.ofConfig {}
  let x := ev.fulfil frame p.left (CallState.start p)
  have hx : (x m).1.result?.map (fun c => c.slots.map Value.mold) = some ["1", "/r", "2"] := by
    decide +kernel
  have hdepth : (x m).2.depth < (x m).2.config.maxDepth := by decide +kernel
  obtain ⟨c, hc, hslots⟩ := Option.map_eq_some_iff.1 hx
  have read : Spec.read refinedSpec = .ok { params := refinedAction.params } := rfl
  have plain : refinedAction.Made := .read read (.inl rfl) rfl rfl
  have made : p.action.Made := .adapted plain [] 0
  obtain ⟨hcheck, hadapted⟩ := fulfil_adapted ev frame p m (x m).2 c made (fun hleft => by cases hleft)
    (Eval.run_of_result? hc)
  obtain ⟨m', -, hredo, -⟩ := hadapted 0 refinedAction (Action.adapts_adapted _ _ _) hdepth
  exact ⟨ev, frame, c, (x m).2, m', hslots, hcheck, hredo⟩

end Evaluator

end Homoicon
