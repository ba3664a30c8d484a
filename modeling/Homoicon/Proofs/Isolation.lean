import Mathlib.Data.List.Find
import Homoicon.Proofs.Mirror
import Homoicon.Proofs.Reach
import Homoicon.Proofs.Tandem.Steps

/-!
# Isolation of calls

A call of an interpreted action can only touch what it can reach: the scope that the action was made
in, what its body and its slots refer to, and what these lead to.  A scope that is not among them is
neither changed nor read.  That it is not read is seen from a second run, on a machine that binds
other values in that scope: it goes like the first.
-/

namespace Homoicon

/-! ### Other bindings in one scope -/

namespace Scopes

variable (h : Scopes) (s : ScopeId) (b : Bindings)

def withBindings : Scopes := ⟨h.cells.modify s fun c => { c with bindings := b }⟩

@[simp] theorem next_withBindings : (h.withBindings s b).next = h.next := by
  simp [withBindings, next]

theorem scope_withBindings (t : ScopeId) :
    (h.withBindings s b).scope t =
      if s = t ∧ t < h.next then { h.scope t with bindings := b } else h.scope t := by
  rw [scope_eq, scope_eq, withBindings, Array.getElem?_modify]
  by_cases ht : t < h.cells.size
  · by_cases hs : s = t <;> simp [next, hs, ht]
  · simp [next, ht]

theorem parent_withBindings (t : ScopeId) :
    ((h.withBindings s b).scope t).parent = (h.scope t).parent := by
  rw [scope_withBindings]
  split <;> rfl

theorem bindings_withBindings_of_ne {t : ScopeId} (ht : t ≠ s) :
    (h.withBindings s b).bindings t = h.bindings t := by
  rw [bindings, scope_withBindings, if_neg fun hs => ht hs.1.symm, bindings]

theorem bindings_withBindings_self (hs : s < h.next) : (h.withBindings s b).bindings s = b := by
  rw [bindings, scope_withBindings, if_pos ⟨rfl, hs⟩]

theorem chain_withBindings (t : ScopeId) : (h.withBindings s b).chain t = h.chain t := by
  unfold chain
  generalize t + 1 = fuel
  induction fuel generalizing t with
  | zero => rfl
  | succ fuel ih =>
    unfold chainFrom
    rw [parent_withBindings]
    cases (h.scope t).parent with
    | none => rfl
    | some p => exact congrArg (t :: ·) (ih p)

variable {h s}

theorem binder?_withBindings {t : ScopeId} (hs : s ∉ h.chain t) (name : String) :
    (h.withBindings s b).binder? t name = h.binder? t name := by
  unfold binder?
  rw [chain_withBindings]
  refine List.find?_congr fun u hu => ?_
  have hne : u ≠ s := fun he => hs (he ▸ hu)
  rw [bindsLocally, bindsLocally, bindings_withBindings_of_ne _ _ _ hne]

theorem lookup_withBindings {t : ScopeId} (hs : s ∉ h.chain t) (name : String) :
    (h.withBindings s b).lookup t name = h.lookup t name := by
  unfold lookup
  rw [chain_withBindings]
  generalize h.chain t = chain at hs
  induction chain with
  | nil => rfl
  | cons u rest ih =>
    simp only [List.mem_cons, not_or] at hs
    simp only [List.findSome?_cons]
    rw [bindings_withBindings_of_ne _ _ _ (Ne.symm hs.1), ih hs.2]

theorem make_withBindings (hs : s < h.next) (parent : Option ScopeId) :
    (h.withBindings s b).make parent = (h.make parent).withBindings s b := by
  refine congrArg Scopes.mk (Array.ext_getElem? fun t => ?_)
  simp only [make, withBindings, Array.getElem?_push, Array.getElem?_modify, Array.size_modify]
  by_cases ht : t = h.cells.size
  · have hne : s ≠ h.cells.size := Nat.ne_of_lt hs
    simp [ht, hne]
  · simp [ht]

theorem define_withBindings {t : ScopeId} (ht : t ≠ s) (name : String) (v : Value) :
    (h.withBindings s b).define t name v = (h.define t name v).withBindings s b := by
  refine congrArg Scopes.mk (Array.ext_getElem? fun u => ?_)
  simp only [define, withBindings, Array.getElem?_modify]
  by_cases hu : t = u
  · have hne : s ≠ u := fun he => ht (hu.trans he.symm)
    simp [hu, hne]
  · simp [hu]

theorem withBindings_self : h.withBindings s (h.bindings s) = h := by
  refine congrArg Scopes.mk (Array.ext_getElem? fun t => ?_)
  rw [bindings, scope_eq, Array.getElem?_modify]
  by_cases hs : s = t
  · subst hs
    cases h.cells[s]? <;> simp
  · simp [hs]

end Scopes

namespace Machine

variable (m : Machine) (s : ScopeId) (b : Bindings)

def withBindings : Machine := { m with scopes := m.scopes.withBindings s b }

theorem withBindings_note (e : Event) :
    (m.withBindings s b).note e = (m.note e).withBindings s b := by
  show (if m.listening then _ else _) = _
  unfold note
  split <;> rfl

theorem withBindings_poll :
    (m.withBindings s b).poll = (m.poll.1, m.poll.2.withBindings s b) := by
  by_cases hwaits : 0 < m.countdown - 1
  · simp only [poll, withBindings, hwaits, if_true]
  · cases hhook : m.hook with
    | none =>
      by_cases hset : m.interrupt = true
      · simp only [poll, withBindings, hwaits, hhook, hset, if_true, if_false]
        exact Prod.ext rfl (withBindings_note { m with
          tick := m.tick + 1, countdown := m.config.pollPeriod, interrupt := false
          hook := none } s b _)
      · simp only [poll, withBindings, hwaits, hhook, hset, if_false, Bool.false_eq_true]
    | some ask =>
      by_cases hset : (m.interrupt || ask (m.tick + 1)) = true
      · simp only [poll, withBindings, hwaits, hhook, hset, if_true, if_false]
        exact Prod.ext rfl (withBindings_note { m with
          tick := m.tick + 1, countdown := m.config.pollPeriod, interrupt := false
          hook := some ask, polled := m.polled.push (m.tick + 1) } s b _)
      · simp only [poll, withBindings, hwaits, hhook, hset, if_false, Bool.false_eq_true]

end Machine

theorem Command.subset_grown {β : Type} (c : Command β) (m : Machine) (R : Region) :
    R ⊆ c.grown m R := by
  cases c with
  | newScope _ | newFeed _ _ | reify _ _ => exact Set.subset_insert _ _
  | _ => exact subset_rfl

/-! ### Sealed scopes -/

/-- A scope of the machine lies outside of a closed region. -/
structure Machine.Sealed (s : ScopeId) (R : Region) (m : Machine) : Prop where
  closed : m.Closed R
  outside : .scope s ∉ R
  made : s < m.scopes.next

namespace Machine.Sealed

variable {s : ScopeId} {R : Region} {m : Machine} (hm : m.Sealed s R)
include hm

theorem ne {t : ScopeId} (ht : .scope t ∈ R) : t ≠ s := fun he => hm.outside (he ▸ ht)

theorem not_mem_chain {t : ScopeId} (ht : .scope t ∈ R) : s ∉ m.scopes.chain t :=
  fun hs => hm.outside (hm.closed.chain ht s hs)

theorem withBindings_assign {t : ScopeId} (ht : .scope t ∈ R) (b : Bindings) (name : String)
    (v : Value) :
    (m.withBindings s b).assign t name v = (m.assign t name v).withBindings s b := by
  have hbinder : (m.withBindings s b).scopes.binder? t name = m.scopes.binder? t name :=
    Scopes.binder?_withBindings b (hm.not_mem_chain ht) name
  have hscopes : (m.withBindings s b).scopes.assign t name v =
      (m.scopes.assign t name v).withBindings s b := by
    unfold Scopes.assign
    rw [hbinder]
    refine Scopes.define_withBindings b ?_ name v
    cases hfound : m.scopes.binder? t name with
    | some u => exact hm.ne (hm.closed.binder ht hfound)
    | none => exact hm.ne ht
  unfold assign
  rw [hbinder, hscopes, withBindings_note]
  split <;> rfl

theorem run_withBindings {β : Type} (c : Command β) (hc : c.Within R) (b : Bindings) :
    c.run (m.withBindings s b) = ((c.run m).1, (c.run m).2.withBindings s b) := by
  cases c with
  | lookup scope name =>
    exact Prod.ext (Scopes.lookup_withBindings b (hm.not_mem_chain hc) name) rfl
  | newScope parent =>
    simp only [Command.run, withBindings, Scopes.make_withBindings b hm.made,
      Scopes.next_withBindings]
  | define scope name v =>
    simp only [Command.run, withBindings, Scopes.define_withBindings b (hm.ne hc.1)]
  | assign scope name v => exact Prod.ext rfl (hm.withBindings_assign hc.1 b name v)
  | poll => exact m.withBindings_poll s b
  | note e => exact Prod.ext rfl (m.withBindings_note s b e)
  | noteState id state =>
    show ((), if m.config.traceSteps = true then
      (m.withBindings s b).note (.stepState m.tick id state) else m.withBindings s b) = _
    rw [m.withBindings_note s b]
    simp only [Command.run]
    split <;> rfl
  | _ => rfl

theorem run {β : Type} (c : Command β) (hc : c.Within R) :
    (c.run m).2.Sealed s (c.grown m R) := by
  have hclosed := (c.run_closed hm.closed hc).2
  refine ⟨hclosed, ?_, Nat.lt_of_lt_of_le hm.made (c.run_next m)⟩
  have hmade := hm.made
  have houtside := hm.outside
  cases c with
  | newScope parent =>
    rintro (h | h)
    · cases h
      exact Nat.lt_irrefl _ hmade
    · exact houtside h
  | newFeed units scope =>
    rintro (h | h)
    · cases h
    · exact houtside h
  | reify id arguments =>
    rintro (h | h)
    · cases h
    · exact houtside h
  | _ => exact houtside

end Machine.Sealed

/-! ### Runs beside a sealed scope -/

def Outcome.Within {α : Type} (Q : Region → α → Prop) (R : Region) : Outcome α → Prop
  | .done a => Q R a
  | .thrown s => s.Within R
  | .failed _ | .exhausted => True

/-- What `x` does on a machine, `x'` does on the machine with other bindings in the scope `s`, which
stays sealed. -/
def Isolates {α : Type} (s : ScopeId) (R : Region) (Q : Region → α → Prop) (x x' : Eval α)
    (m : Machine) : Prop :=
  ∃ S, R ⊆ S ∧ (x m).2.Sealed s S ∧ (x m).1.Within Q S ∧
    ∀ b, x' (m.withBindings s b) = ((x m).1, (x m).2.withBindings s b)

namespace Isolates

variable {α β : Type} {s : ScopeId} {R : Region} {m : Machine} {P Q : Region → α → Prop}
  {x x' : Eval α}

theorem atOnce {o : Outcome α} (hm : m.Sealed s R) (hx : ∀ n, x n = (o, n)) (ho : o.Within Q R) :
    Isolates s R Q x x m := by
  refine ⟨R, subset_rfl, ?_, ?_, fun b => ?_⟩
  · rw [hx]
    exact hm
  · rw [hx]
    exact ho
  · rw [hx, hx]

theorem bind {Q : Region → β → Prop} {f f' : α → Eval β} (hx : Isolates s R P x x' m)
    (hf : ∀ S a m', R ⊆ S → P S a → m'.Sealed s S → Isolates s S Q (f a) (f' a) m') :
    Isolates s R Q (x >>= f) (x' >>= f') m := by
  obtain ⟨S, le, hsealed, hout, htwin⟩ := hx
  have hall := Eval.run_bind x f m
  rcases hrun : x m with ⟨a | signal | fault | _, m'⟩ <;>
    rw [hrun] at hall hsealed hout htwin <;> unfold Isolates <;> rw [hall]
  · obtain ⟨S', le', hsealed', hout', htwin'⟩ := hf S a m' le hout hsealed
    refine ⟨S', le.trans le', hsealed', hout', fun b => ?_⟩
    rw [Eval.run_bind_of_done (htwin b), htwin' b]
  all_goals
    refine ⟨S, le, hsealed, hout, fun b => ?_⟩
    rw [Eval.run_bind, htwin b]

theorem turned {turn : Outcome α → Outcome β} {Q' : Region → β → Prop} {y y' : Eval β}
    (hy : ∀ n, y n = (turn (x n).1, (x n).2)) (hy' : ∀ n, y' n = (turn (x' n).1, (x' n).2))
    (hturn : ∀ S o, Outcome.Within Q S o → (turn o).Within Q' S) (h : Isolates s R Q x x' m) :
    Isolates s R Q' y y' m := by
  obtain ⟨S, le, hsealed, hout, htwin⟩ := h
  unfold Isolates
  rw [hy]
  refine ⟨S, le, hsealed, hturn S _ hout, fun b => ?_⟩
  rw [hy', htwin]

theorem catchSignal (h : Isolates s R Q x x' m) :
    Isolates s R (SignalSeen Q) x.catchSignal x'.catchSignal m := by
  refine turned x.run_catchSignal x'.run_catchSignal (fun S o ho => ?_) h
  cases o with
  | done a => exact ho
  | thrown signal => exact ho
  | failed f => trivial
  | exhausted => trivial

theorem catchFault (h : Isolates s R Q x x' m) :
    Isolates s R (FaultSeen Q) x.catchFault x'.catchFault m := by
  refine turned x.run_catchFault x'.run_catchFault (fun S o ho => ?_) h
  cases o with
  | done a => exact ho
  | thrown signal => exact ho
  | failed f => trivial
  | exhausted => trivial

theorem command (c : Command β) (hm : m.Sealed s R) (hc : c.Within R) :
    Isolates s R c.Answers (Eval.command c) (Eval.command c) m := by
  refine ⟨c.grown m R, c.subset_grown m R, hm.run c hc, (c.run_closed hm.closed hc).1, fun b => ?_⟩
  rw [Eval.run_command, hm.run_withBindings c hc b]
  rfl

theorem inFrame {label : Option String} {body body' : FrameId → Eval α} (hm : m.Sealed s R)
    (h : Isolates s R Q (body m.nextFrame) (body' m.nextFrame) (m.enter label)) :
    Isolates s R Q (.inFrame label body .done) (.inFrame label body' .done) m := by
  by_cases hroom : m.config.maxDepth ≤ m.depth
  · unfold Isolates
    rw [Eval.run_inFrame_refused hroom]
    exact ⟨R, subset_rfl, hm, trivial, fun b => Eval.run_inFrame_refused hroom⟩
  · have hroom' : ∀ b, ¬(m.withBindings s b).config.maxDepth ≤ (m.withBindings s b).depth :=
      fun _ => hroom
    obtain ⟨S, le, hsealed, hout, htwin⟩ := h
    unfold Isolates
    rw [Eval.run_inFrame hroom]
    refine ⟨S, le, ⟨hsealed.closed.congr rfl rfl rfl, hsealed.outside, hsealed.made⟩, ?_, fun b => ?_⟩
    · revert hout
      cases (body m.nextFrame (m.enter label)).1 <;> exact id
    · have henter : (m.withBindings s b).enter label = (m.enter label).withBindings s b := rfl
      have hnext : (m.withBindings s b).nextFrame = m.nextFrame := rfl
      rw [Eval.run_inFrame (hroom' b), henter, hnext, htwin b]
      rfl

end Isolates

def isolation (s : ScopeId) : Tandem where
  Holds R Q x x' := ∀ m, m.Sealed s R → Isolates s R Q x x' m
  ret h := fun _ hm => .atOnce hm (fun _ => rfl) h
  bind hx hf := fun m hm => (hx m hm).bind fun S a m' le ha hm' => hf S a le ha m' hm'
  fail := fun _ hm => .atOnce hm (fun _ => rfl) trivial
  signal h := fun _ hm => .atOnce hm (fun _ => rfl) h
  exhaust := fun _ hm => .atOnce hm (fun _ => rfl) trivial
  ask c h := fun _ hm => .command c hm h
  catchSignal hx := fun m hm => (hx m hm).catchSignal
  catchFault hx := fun m hm => (hx m hm).catchFault
  inFrame h := fun _ hm => .inFrame hm
    (h _ _ ⟨hm.closed.congr rfl rfl rfl, hm.outside, hm.made⟩)

/-- Steps run beside a sealed scope, however deep they nest. -/
theorem stepWithin_isolation (s : ScopeId) (patience nesting : Nat) :
    (isolation s).Nested ⟨stepWithin patience nesting, patience⟩
      ⟨stepWithin patience nesting, patience⟩ := by
  induction nesting with
  | zero =>
    exact Tandem.nested_of_steps (isolation s) rfl (fun _ => (isolation s).exhaust)
      (isolation s).withFrame
  | succ nesting ih =>
    refine Tandem.nested_of_steps (isolation s) rfl (fun h => ?_) (isolation s).withFrame
    exact (isolation s).evalStep ih h

/-! ### Calls -/

/-- A run neither changes nor reads the bindings of the scope `s`: with other bindings there it ends
alike, with the same bindings everywhere else. -/
def Eval.Spares {α : Type} (x : Eval α) (s : ScopeId) (m : Machine) : Prop :=
  (x m).2.scopes.bindings s = m.scopes.bindings s ∧
    ∀ b, x (m.withBindings s b) = ((x m).1, (x m).2.withBindings s b)

theorem Isolates.spares {α : Type} {s : ScopeId} {R : Region} {Q : Region → α → Prop} {x : Eval α}
    {m : Machine} (h : Isolates s R Q x x m) : x.Spares s m := by
  obtain ⟨S, -, hsealed, -, htwin⟩ := h
  refine ⟨?_, htwin⟩
  have hself : m.withBindings s (m.scopes.bindings s) = m := by
    rw [Machine.withBindings, Scopes.withBindings_self]
  have hrun := htwin (m.scopes.bindings s)
  rw [hself] at hrun
  rw [hrun]
  exact Scopes.bindings_withBindings_self _ _ _ hsealed.made

/-- What a call of an interpreted action starts from: the scope that the action was made in, what
its body refers to, and what the slots refer to. -/
def bodyRoots (body : List Value) (scope : ScopeId) (slots : List Value) : List Handle :=
  .scope scope :: (Value.handlesAll body ++ Value.handlesAll slots)

def Bounce.value? : Bounce → Option Value
  | .out v => some v
  | _ => none

/-- The variables of a scope as the code that runs in it sees them: the scope, and the feeds of that
code. -/
def Machine.locals (m : Machine) (s : ScopeId) : Region :=
  {h | h = .scope s ∨ ∃ f, h = .feed f ∧ (m.feed f).scope = s}

namespace Evaluator

variable (patience nesting : Nat) (frame : Frame) {c : CallState} {body : List Value}
  {scope : ScopeId}

theorem runDispatcher_spares (hc : c.action.dispatcher = .interpreted body scope) {m : Machine}
    {s : ScopeId} (hmade : s < m.scopes.next)
    (hs : ¬m.Reaches (bodyRoots body scope c.slots) (.scope s)) :
    (runDispatcher ⟨stepWithin patience nesting, patience⟩ frame c).Spares s m := by
  have hroots : ∀ h ∈ bodyRoots body scope c.slots,
      h ∈ {h | m.Reaches (bodyRoots body scope c.slots) h} := fun h hh => ⟨h, hh, .refl⟩
  obtain ⟨hscope, hroots⟩ := List.forall_mem_cons.1 hroots
  obtain ⟨hbody, hslots⟩ := List.forall_mem_append.1 hroots
  have hrun : (isolation s).Holds {h | m.Reaches (bodyRoots body scope c.slots) h}
      (fun S r => r.1.Within S) (runDispatcher ⟨stepWithin patience nesting, patience⟩ frame c)
      (runDispatcher ⟨stepWithin patience nesting, patience⟩ frame c) := by
    unfold runDispatcher
    rw [hc]
    refine (isolation s).bind ((isolation s).runBody (stepWithin_isolation s patience nesting) hscope
      (Value.allWithin_iff.1 hbody) (Value.allWithin_iff.1 hslots)) fun _ _ _ hb => ?_
    exact (isolation s).ret hb
  exact (hrun m ⟨m.closed_reaches _, hs, hmade⟩).spares

/-- The call of an interpreted action spares every scope that it cannot reach.  So it spares the
variables of its caller, if nothing but the caller's own code leads to them and the call was given
no varargs to pull from that code. -/
theorem runDispatcher_isolated (hc : c.action.dispatcher = .interpreted body scope) (m : Machine) :
    (∀ s < m.scopes.next, ¬m.Reaches (bodyRoots body scope c.slots) (.scope s) →
      (runDispatcher ⟨stepWithin patience nesting, patience⟩ frame c).Spares s m) ∧
    (∀ s < m.scopes.next, m.Closed (m.locals s)ᶜ →
      .scope s ∉ bodyRoots body scope c.slots → (∀ f, .feed f ∉ bodyRoots body scope c.slots) →
      (runDispatcher ⟨stepWithin patience nesting, patience⟩ frame c).Spares s m) := by
  refine ⟨fun s hmade hs => runDispatcher_spares patience nesting frame hc hmade hs,
    fun s hmade hclosed hscope hfeeds => ?_⟩
  refine runDispatcher_spares patience nesting frame hc hmade fun hs => ?_
  have houtside : ∀ h ∈ bodyRoots body scope c.slots, h ∈ (m.locals s)ᶜ := by
    rintro h hh (rfl | ⟨f, rfl, -⟩)
    · exact hscope hh
    · exact hfeeds f hh
  exact hclosed.reaches houtside hs (.inl rfl)

/-- A machine that runs code in the scope 1, where `x` is 7. -/
def calling : Machine :=
  { Machine.new {} with
    scopes := { cells := #[{}, { bindings := [("x", .integer 7)], parent := some 0 }] }
    feeds := #[{ units := [], scope := 1 }] }

/-- The call of a function of the scope 0 that sets `x` to its argument, which is 5. -/
def settingCall : CallState :=
  { action :=
      { label := none, params := [{ name := "a", role := .normal, types := TypeSet.anyValue }]
        signature := 0, dispatcher := .interpreted [.setWord "x", .word "a"] 0, exemplar := none
        enfixed := false, deferral := .none, description := none }
    label := "f"
    slots := [.integer 5] }

/-- The function sets a variable of its own, and would come to the same if the caller had no `x`. -/
theorem runDispatcher_isolated_caller :
    let run := runDispatcher ⟨stepWithin 1 3, 1⟩ { id := 0, feed := 0 } settingCall
    ((run calling).1.result?.bind fun r => r.1.value?.map Value.mold) = some "5" ∧
      (run calling).2.scopes.bindings 1 = [("x", .integer 7)] ∧
      (run (calling.withBindings 1 [])).1 = (run calling).1 := by
  have hempty : ∀ s, s ≠ 1 → calling.scopes.scope s = {} := by
    intro s hs
    match s with
    | 0 => rfl
    | 1 => exact absurd rfl hs
    | _ + 2 => rfl
  have hunits : ∀ f, (calling.feed f).units = [] := by
    intro f
    cases f <;> rfl
  have hclosed : calling.Closed (calling.locals 1)ᶜ := by
    intro g hg h hlead
    cases hlead with
    | parent hp =>
      rw [hempty _ fun hs => hg (.inl (by rw [hs]))] at hp
      cases hp
    | binding hv hh =>
      rw [Scopes.bindings, hempty _ fun hs => hg (.inl (by rw [hs]))] at hv
      cases hv
    | feedScope =>
      rintro (hs | ⟨f, hf, -⟩)
      · exact hg (.inr ⟨_, rfl, Handle.scope.inj hs⟩)
      · cases hf
    | unit hv hh =>
      rw [hunits] at hv
      cases hv
    | argument hv hh => cases hv
  have hroots : bodyRoots [.setWord "x", .word "a"] 0 settingCall.slots = [.scope 0] := rfl
  have hspares := (runDispatcher_isolated 1 3 { id := 0, feed := 0 } (c := settingCall) rfl
    calling).2 1 (by decide) hclosed (by simp [hroots]) (by simp [hroots])
  exact ⟨by decide +kernel, hspares.1, by rw [hspares.2]⟩

end Evaluator

end Homoicon
