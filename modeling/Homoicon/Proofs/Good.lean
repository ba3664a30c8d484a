import Homoicon.Evaluate.Call
import Homoicon.Proofs.Trace

/-!
# What values hold

Values hold operations, inside actions, and faults, inside errors.  `Facts` says which operations,
with which parameters, and which stack overflows are granted; a value is good if all it holds,
however deep inside, is granted, and a machine is good if all values in it are.
-/

namespace Homoicon

/-- Which operations and which stack overflows may be somewhere inside of values. -/
structure Facts where
  native : Native → Prop
  /-- The depths at which a stack may have overflowed. -/
  overflow : Nat → Prop
  /-- The parameters with which actions call an operation. -/
  called : Native → List Param → Prop := fun _ _ => True
  /-- Operations of a host can give an operation the parameters of another. -/
  host : ∀ (n : Native) (op : HostOperation), native n → n.operation = .host op →
    ∀ k params, called k params := by intros; trivial

/-- A fault is granted unless it is a stack overflow that is not. -/
def Facts.fault (F : Facts) (f : Fault) : Prop := ∀ n, f.cause = .stackOverflow n → F.overflow n

mutual

def Value.Good (F : Facts) : Value → Prop
  | .block items | .group items | .path items | .setPath items | .getPath items =>
    Value.GoodAll F items
  | .sym payload | .quoted payload => payload.Good F
  | .action _ a => a.Good F
  | .error _ f => F.fault f
  | _ => True

def Value.GoodAll (F : Facts) : List Value → Prop
  | [] => True
  | v :: rest => v.Good F ∧ Value.GoodAll F rest

def Action.Good (F : Facts) : Action → Prop
  | .mk _ params _ dispatcher exemplar _ _ _ => dispatcher.Good F ∧ Value.GoodExemplar F exemplar ∧
    ∀ n, dispatcher = .native n → F.called n params

def Dispatcher.Good (F : Facts) : Dispatcher → Prop
  | .native n => F.native n
  | .interpreted body _ => Value.GoodAll F body
  | .adapted prelude _ adaptee => Value.GoodAll F prelude ∧ adaptee.Good F
  | .returnTo _ => True

/-- Everything inside the slots of a specialization is granted. -/
def Value.GoodExemplar (F : Facts) : Option (List (Option Value)) → Prop
  | none => True
  | some slots => Value.GoodSlots F slots

def Value.GoodSlots (F : Facts) : List (Option Value) → Prop
  | [] => True
  | slot :: rest => Value.GoodMaybe F slot ∧ Value.GoodSlots F rest

def Value.GoodMaybe (F : Facts) : Option Value → Prop
  | none => True
  | some v => v.Good F

end

variable {F : Facts}

theorem Facts.fault_of {c : Cause} (h : ∀ n, c ≠ .stackOverflow n) : F.fault (.of c) :=
  fun n e => absurd e (h n)

theorem Facts.fault_congr {f g : Fault} (h : g.cause = f.cause) (hf : F.fault f) : F.fault g :=
  fun n e => hf n (h ▸ e)

theorem Facts.fault_nearUnit {f : Fault} {unit : String} (h : F.fault f) :
    F.fault (f.nearUnit unit) :=
  F.fault_congr (f.cause_nearUnit unit) h

theorem Facts.fault_inCall {f : Fault} {label : String} (h : F.fault f) : F.fault (f.inCall label) :=
  F.fault_congr (f.cause_inCall label) h

namespace Value

theorem goodAll_iff {items : List Value} : GoodAll F items ↔ ∀ v ∈ items, v.Good F := by
  induction items with
  | nil => simp [GoodAll]
  | cons v rest ih => simp [GoodAll, ih]

theorem goodSlots_iff {slots : List (Option Value)} :
    GoodSlots F slots ↔ ∀ slot ∈ slots, GoodMaybe F slot := by
  induction slots with
  | nil => simp [GoodSlots]
  | cons slot rest ih => simp [GoodSlots, ih]

theorem goodMaybe_iff {o : Option Value} : GoodMaybe F o ↔ ∀ v, o = some v → v.Good F := by
  cases o <;> simp [GoodMaybe]

theorem GoodMaybe.getD {o : Option Value} {v : Value} (h : GoodMaybe F o) (hv : v.Good F) :
    (o.getD v).Good F := by
  cases o with
  | none => exact hv
  | some w => exact h

theorem GoodMaybe.or {o o' : Option Value} (h : GoodMaybe F o) (h' : GoodMaybe F o') :
    GoodMaybe F (o.or o') := by
  cases o with
  | none => exact h'
  | some w => exact h

theorem GoodAll.get? {items : List Value} (h : GoodAll F items) (i : Nat) : GoodMaybe F items[i]? :=
  goodMaybe_iff.2 fun v hv => goodAll_iff.1 h v (List.mem_of_getElem? hv)

theorem GoodAll.set {items : List Value} (h : GoodAll F items) (i : Nat) {v : Value}
    (hv : v.Good F) : GoodAll F (items.set i v) := by
  refine goodAll_iff.2 fun w hw => ?_
  rcases List.mem_or_eq_of_mem_set hw with hw | rfl
  · exact goodAll_iff.1 h w hw
  · exact hv

theorem GoodAll.append {as bs : List Value} (h : GoodAll F as) (h' : GoodAll F bs) :
    GoodAll F (as ++ bs) := by
  refine goodAll_iff.2 fun v hv => ?_
  rcases List.mem_append.1 hv with hv | hv
  · exact goodAll_iff.1 h v hv
  · exact goodAll_iff.1 h' v hv

theorem GoodAll.reverse {items : List Value} (h : GoodAll F items) : GoodAll F items.reverse :=
  goodAll_iff.2 fun v hv => goodAll_iff.1 h v (List.mem_reverse.1 hv)

theorem Good.quotedIfNeeded {v : Value} (h : v.Good F) : v.quotedIfNeeded.Good F := by
  unfold Value.quotedIfNeeded
  split
  · exact h
  · simpa [Value.Good] using h

end Value

namespace Action

theorem good_iff {a : Action} :
    a.Good F ↔ a.dispatcher.Good F ∧ Value.GoodExemplar F a.exemplar ∧
      ∀ n, a.dispatcher = .native n → F.called n a.params := by
  cases a
  simp [Action.Good]

theorem Good.preset {a : Action} (h : a.Good F) (i : Nat) : Value.GoodMaybe F (a.preset? i) := by
  have h := (good_iff.1 h).2.1
  unfold Action.preset?
  cases hex : a.exemplar with
  | none => simp [Value.GoodMaybe]
  | some slots =>
    rw [hex] at h
    refine Value.goodMaybe_iff.2 fun v hv => ?_
    simp only [Option.bind_some, Option.join_eq_some_iff] at hv
    exact Value.goodSlots_iff.1 h _ (List.mem_of_getElem? hv)

/-- What is neither code nor a parameter nor a slot of an action does not matter. -/
theorem Good.congr {a b : Action} (h : a.Good F) (hd : b.dispatcher = a.dispatcher)
    (he : b.exemplar = a.exemplar) (hp : b.params = a.params) : b.Good F := by
  rw [good_iff, hd, he, hp]
  exact good_iff.1 h

end Action

/-! ### Granting more -/

/-- All that one granted is granted by the other. -/
structure Facts.Le (F G : Facts) : Prop where
  native : ∀ n, F.native n → G.native n
  overflow : ∀ n, F.overflow n → G.overflow n
  called : ∀ n params, F.called n params → G.called n params := by exact fun _ _ h => h

theorem Facts.Le.fault {F G : Facts} (h : F.Le G) {f : Fault} (hf : F.fault f) : G.fault f :=
  fun n e => h.overflow n (hf n e)

section Mono

variable {F G : Facts}

mutual

theorem Value.Good.mono (h : F.Le G) : ∀ v : Value, v.Good F → v.Good G
  | .block items, hv | .group items, hv | .path items, hv | .setPath items, hv
  | .getPath items, hv => Value.GoodAll.mono h items hv
  | .sym payload, hv | .quoted payload, hv => Value.Good.mono h payload hv
  | .action _ a, hv => Action.Good.mono h a hv
  | .error _ _, hv => h.fault hv
  | .null, _ | .void, _ | .blank, _ | .logic _, _ | .integer _, _ | .decimal _, _ | .text _, _
  | .tag _, _ | .refinement _, _ | .datatype _, _ | .varargs _ _, _ | .frame _, _ | .word _, _
  | .setWord _, _ | .getWord _, _ | .comma, _ => trivial

theorem Value.GoodAll.mono (h : F.Le G) :
    ∀ items : List Value, Value.GoodAll F items → Value.GoodAll G items
  | [], _ => trivial
  | v :: rest, hv => ⟨Value.Good.mono h v hv.1, Value.GoodAll.mono h rest hv.2⟩

theorem Action.Good.mono (h : F.Le G) : ∀ a : Action, a.Good F → a.Good G
  | .mk _ _ _ dispatcher exemplar _ _ _, ha =>
    ⟨Dispatcher.Good.mono h dispatcher ha.1, Value.GoodExemplar.mono h exemplar ha.2.1,
      fun n hn => h.called n _ (ha.2.2 n hn)⟩

theorem Dispatcher.Good.mono (h : F.Le G) : ∀ d : Dispatcher, d.Good F → d.Good G
  | .native n, hd => h.native n hd
  | .interpreted body _, hd => Value.GoodAll.mono h body hd
  | .adapted prelude _ adaptee, hd =>
    ⟨Value.GoodAll.mono h prelude hd.1, Action.Good.mono h adaptee hd.2⟩
  | .returnTo _, _ => trivial

theorem Value.GoodExemplar.mono (h : F.Le G) : ∀ exemplar : Option (List (Option Value)),
    Value.GoodExemplar F exemplar → Value.GoodExemplar G exemplar
  | none, _ => trivial
  | some slots, he => Value.GoodSlots.mono h slots he

theorem Value.GoodSlots.mono (h : F.Le G) :
    ∀ slots : List (Option Value), Value.GoodSlots F slots → Value.GoodSlots G slots
  | [], _ => trivial
  | slot :: rest, hs => ⟨Value.GoodMaybe.mono h slot hs.1, Value.GoodSlots.mono h rest hs.2⟩

theorem Value.GoodMaybe.mono (h : F.Le G) :
    ∀ o : Option Value, Value.GoodMaybe F o → Value.GoodMaybe G o
  | none, _ => trivial
  | some v, ho => Value.Good.mono h v ho

end

end Mono

/-! ### Machines -/

theorem mem_modify {α : Type} {xs : Array α} {i : Nat} {f : α → α} {x : α}
    (h : x ∈ xs.modify i f) : x ∈ xs ∨ ∃ y ∈ xs, x = f y := by
  obtain ⟨j, hj, rfl⟩ := Array.mem_iff_getElem.1 h
  rw [Array.getElem_modify]
  split
  · exact .inr ⟨_, Array.getElem_mem _, rfl⟩
  · exact .inl (Array.getElem_mem _)

structure Feed.Good (F : Facts) (f : Feed) : Prop where
  units : Value.GoodAll F f.units
  lookback : Value.GoodMaybe F f.lookback

def Bindings.Good (F : Facts) (b : Bindings) : Prop := ∀ e ∈ b, e.2.Good F

structure Machine.Good (F : Facts) (m : Machine) : Prop where
  scopes : ∀ s ∈ m.scopes.cells, Bindings.Good F s.bindings
  feeds : ∀ f ∈ m.feeds, Feed.Good F f
  snapshots : ∀ s ∈ m.snapshots, Bindings.Good F s.2

namespace Feed.Good

variable {f : Feed}

theorem peek (h : f.Good F) : Value.GoodMaybe F f.peek := by
  rw [Feed.peek, List.head?_eq_getElem?]
  exact h.units.get? 0

theorem advance (h : f.Good F) : f.advance.Good F := by
  unfold Feed.advance
  split
  · exact h
  · rename_i u us hu
    have hunits := h.units
    rw [hu] at hunits
    exact ⟨hunits.2, hunits.1⟩

end Feed.Good

namespace Bindings.Good

variable {b : Bindings}

theorem get? (h : Good F b) (name : String) : Value.GoodMaybe F (b.get? name) := by
  induction b with
  | nil => simp [Bindings.get?, Value.GoodMaybe]
  | cons e rest ih =>
    obtain ⟨n, v⟩ := e
    unfold Bindings.get?
    split
    · exact h (n, v) (by simp)
    · exact ih fun e he => h e (by simp [he])

theorem put (h : Good F b) (name : String) {v : Value} (hv : v.Good F) : Good F (b.put name v) := by
  induction b with
  | nil =>
    intro e he
    obtain rfl : e = (name, v) := by simpa [Bindings.put] using he
    exact hv
  | cons e rest ih =>
    obtain ⟨n, w⟩ := e
    obtain ⟨hw, hrest⟩ := List.forall_mem_cons.1 h
    unfold Bindings.put
    split
    · exact List.forall_mem_cons.2 ⟨hv, hrest⟩
    · exact List.forall_mem_cons.2 ⟨hw, ih hrest⟩

end Bindings.Good

namespace Machine.Good

variable {m : Machine}

theorem mono {G : Facts} (hm : m.Good F) (h : F.Le G) : m.Good G :=
  ⟨fun s hs e he => Value.Good.mono h _ (hm.scopes s hs e he),
    fun f hf => 
      ⟨Value.GoodAll.mono h _ (hm.feeds f hf).units, Value.GoodMaybe.mono h _ (hm.feeds f hf).lookback⟩,
    fun s hs e he => Value.Good.mono h _ (hm.snapshots s hs e he)⟩

theorem bindings (h : m.Good F) (s : ScopeId) : Bindings.Good F (m.scopes.bindings s) := by
  unfold Scopes.bindings Scopes.scope
  rw [Array.getD_eq_getD_getElem?]
  cases hs : m.scopes.cells[s]? with
  | none =>
    intro e he
    simp at he
  | some c => exact h.scopes c (Array.mem_of_getElem? hs)

theorem lookup (h : m.Good F) (s : ScopeId) (name : String) :
    Value.GoodMaybe F (m.lookup s name) := by
  refine Value.goodMaybe_iff.2 fun v hv => ?_
  obtain ⟨t, -, ht⟩ := List.exists_of_findSome?_eq_some hv
  exact Value.goodMaybe_iff.1 ((h.bindings t).get? name) v ht

theorem feed (h : m.Good F) (id : FeedId) : Feed.Good F (m.feed id) := by
  unfold Machine.feed
  rw [Array.getD_eq_getD_getElem?]
  cases hf : m.feeds[id]? with
  | none => exact ⟨trivial, trivial⟩
  | some f => exact h.feeds f (Array.mem_of_getElem? hf)

theorem frameArgument (h : m.Good F) (id : FrameId) (name : String) :
    Value.GoodMaybe F (m.frameArgument? id name) := by
  refine Value.goodMaybe_iff.2 fun v hv => ?_
  obtain ⟨s, hs, hv⟩ := Option.bind_eq_some_iff.1 hv
  exact Value.goodMaybe_iff.1 ((h.snapshots s (List.mem_of_find?_eq_some hs)).get? name) v hv

theorem define (h : m.Good F) (s : ScopeId) (name : String) {v : Value} (hv : v.Good F) :
    ({ m with scopes := m.scopes.define s name v } : Machine).Good F := by
  refine ⟨fun c hc => ?_, h.feeds, h.snapshots⟩
  have hc : c ∈ m.scopes.cells.modify s fun c => { c with bindings := c.bindings.put name v } := hc
  rcases mem_modify hc with hc | ⟨d, hd, rfl⟩
  · exact h.scopes c hc
  · exact (h.scopes d hd).put name hv

theorem assign (h : m.Good F) (s : ScopeId) (name : String) {v : Value} (hv : v.Good F) :
    (m.assign s name v).Good F := by
  obtain ⟨_, hm⟩ := m.assign_eq s name v
  have hdefine := h.define ((m.scopes.binder? s name).getD s) name hv
  rw [hm]
  exact ⟨hdefine.scopes, hdefine.feeds, hdefine.snapshots⟩

theorem updateFeed (h : m.Good F) (id : FeedId) {f : Feed → Feed}
    (hf : ∀ feed, Feed.Good F feed → Feed.Good F (f feed)) : (m.updateFeed id f).Good F := by
  refine ⟨h.scopes, fun c hc => ?_, h.snapshots⟩
  have hc : c ∈ m.feeds.modify id f := hc
  rcases mem_modify hc with hc | ⟨d, hd, rfl⟩
  · exact h.feeds c hc
  · exact hf d (h.feeds d hd)

theorem note (h : m.Good F) (e : Event) : (m.note e).Good F := by
  obtain ⟨_, he⟩ := m.note_eq e
  rw [he]
  exact ⟨h.scopes, h.feeds, h.snapshots⟩

end Machine.Good

namespace Command

variable {β : Type}

def Accepts (F : Facts) : {β : Type} → Command β → Prop
  | _, .define _ _ v | _, .assign _ _ v => v.Good F
  | _, .newFeed units _ => Value.GoodAll F units
  | _, .reify _ arguments => Bindings.Good F arguments
  | _, _ => True

def Yields (F : Facts) : {β : Type} → Command β → β → Prop
  | _, .lookup _ _, v | _, .peek _, v | _, .peekNext _, v | _, .lookback _, v
  | _, .frameArgument _ _, v => Value.GoodMaybe F v
  | _, .feed _, f => Feed.Good F f
  | _, _, _ => True

theorem run_good (c : Command β) {m : Machine} (hm : m.Good F) (hc : c.Accepts F) :
    c.Yields F (c.run m).1 ∧ (c.run m).2.Good F := by
  cases c with
  | lookup scope name => exact ⟨hm.lookup scope name, hm⟩
  | newScope parent =>
    refine ⟨trivial, fun s hs => ?_, hm.feeds, hm.snapshots⟩
    rcases Array.mem_push.1 hs with hs | rfl
    · exact hm.scopes s hs
    · intro e he
      cases he
  | define scope name v => exact ⟨trivial, hm.define scope name hc⟩
  | assign scope name v => exact ⟨trivial, hm.assign scope name hc⟩
  | newFeed units scope =>
    refine ⟨trivial, hm.scopes, fun f hf => ?_, hm.snapshots⟩
    rcases Array.mem_push.1 hf with hf | rfl
    · exact hm.feeds f hf
    · exact ⟨hc, trivial⟩
  | feed id => exact ⟨hm.feed id, hm⟩
  | peek id => exact ⟨(hm.feed id).peek, hm⟩
  | peekNext id => exact ⟨(hm.feed id).units.get? 1, hm⟩
  | lookback id => exact ⟨(hm.feed id).lookback, hm⟩
  | advance id => exact ⟨trivial, hm.updateFeed id fun f hf => hf.advance⟩
  | setNoLookahead id b => exact ⟨trivial, hm.updateFeed id fun f hf => ⟨hf.units, hf.lookback⟩⟩
  | setDeferring id b => exact ⟨trivial, hm.updateFeed id fun f hf => ⟨hf.units, hf.lookback⟩⟩
  | reify id arguments => exact ⟨trivial, hm.scopes, hm.feeds, List.forall_mem_cons.2 ⟨hc, hm.snapshots⟩⟩
  | frameArgument id name => exact ⟨hm.frameArgument id name, hm⟩
  | poll =>
    refine ⟨trivial, ?_⟩
    obtain ⟨_, _, _, _, h⟩ := m.poll_eq
    simp only [run, h]
    exact ⟨hm.scopes, hm.feeds, hm.snapshots⟩
  | note e => exact ⟨trivial, hm.note e⟩
  | noteState id state =>
    refine ⟨trivial, ?_⟩
    simp only [run]
    split
    · exact hm.note _
    · exact hm
  | freshIdentity => exact ⟨trivial, hm.scopes, hm.feeds, hm.snapshots⟩
  | requestStop => exact ⟨trivial, hm.scopes, hm.feeds, hm.snapshots⟩
  | printLine s => exact ⟨trivial, hm.scopes, hm.feeds, hm.snapshots⟩
  | takePrinted => exact ⟨trivial, hm.scopes, hm.feeds, hm.snapshots⟩
  | _ => exact ⟨trivial, hm⟩

end Command

end Homoicon
