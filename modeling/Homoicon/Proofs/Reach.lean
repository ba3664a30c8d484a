import Mathlib.Data.Set.Insert
import Mathlib.Logic.Relation
import Homoicon.Proofs.Progress
import Homoicon.Proofs.Tandem

/-!
# What can be reached

On a machine one handle leads to others: a scope to its parent and to what its values refer to, a
feed to its scope and to its units, a frame to its arguments.  A region is closed if nothing leads
out of it.  A command that stays within a closed region finds nothing outside of it, and what it
makes can be added to the region.
-/

namespace Homoicon

/-- What one handle leads to on a machine. -/
inductive Machine.Leads (m : Machine) : Handle → Handle → Prop
  | parent {s p : ScopeId} (hp : (m.scopes.scope s).parent = some p) : Leads m (.scope s) (.scope p)
  | binding {s : ScopeId} {name : String} {v : Value} {h : Handle}
    (hv : (m.scopes.bindings s).get? name = some v) (hh : h ∈ v.handles) : Leads m (.scope s) h
  | feedScope {f : FeedId} : Leads m (.feed f) (.scope (m.feed f).scope)
  | unit {f : FeedId} {v : Value} {h : Handle} (hv : v ∈ (m.feed f).units) (hh : h ∈ v.handles) :
    Leads m (.feed f) h
  | argument {id : FrameId} {name : String} {v : Value} {h : Handle}
    (hv : m.frameArgument? id name = some v) (hh : h ∈ v.handles) : Leads m (.frame id) h

/-- What can be reached on a machine from some handles. -/
def Machine.Reaches (m : Machine) (roots : List Handle) (h : Handle) : Prop :=
  ∃ r ∈ roots, Relation.ReflTransGen m.Leads r h

/-- Nothing in a region leads out of it. -/
def Machine.Closed (R : Region) (m : Machine) : Prop := ∀ g ∈ R, ∀ h, m.Leads g h → h ∈ R

theorem Machine.closed_reaches (m : Machine) (roots : List Handle) :
    m.Closed {h | m.Reaches roots h} := by
  rintro g ⟨r, hr, hg⟩ h hh
  exact ⟨r, hr, hg.tail hh⟩

theorem Machine.Closed.reaches {R : Region} {m : Machine} {roots : List Handle} (hm : m.Closed R)
    (hroots : ∀ h ∈ roots, h ∈ R) {h : Handle} (hh : m.Reaches roots h) : h ∈ R := by
  obtain ⟨r, hr, hh⟩ := hh
  induction hh with
  | refl => exact hroots r hr
  | tail _ hstep ih => exact hm _ ih _ hstep

/-! ### Scopes -/

namespace Scopes

variable (h : Scopes)

theorem scope_eq (s : ScopeId) : h.scope s = (h.cells[s]?).getD {} := by
  rw [scope, Array.getD_eq_getD_getElem?]

theorem scope_make (parent : Option ScopeId) (s : ScopeId) :
    (h.make parent).scope s = if s = h.next then { parent } else h.scope s := by
  rw [scope_eq, make, Array.getElem?_push]
  by_cases hs : s = h.cells.size
  · simp [next, hs]
  · simp [next, hs, scope_eq]

theorem scope_define (t s : ScopeId) (name : String) (v : Value) :
    (h.define t name v).scope s =
      if t = s ∧ s < h.next then { h.scope s with bindings := (h.bindings s).put name v }
      else h.scope s := by
  rw [bindings, scope_eq, scope_eq, define, Array.getElem?_modify]
  by_cases hs : s < h.cells.size
  · by_cases ht : t = s <;> simp [next, ht, hs]
  · simp [next, hs]

theorem parent_define (t s : ScopeId) (name : String) (v : Value) :
    ((h.define t name v).scope s).parent = (h.scope s).parent := by
  rw [scope_define]
  split <;> rfl

theorem get?_define (t s : ScopeId) (name other : String) (v : Value) :
    ((h.define t name v).bindings s).get? other = (h.bindings s).get? other ∨
      ((h.define t name v).bindings s).get? other = some v := by
  rw [bindings, scope_define]
  split
  · by_cases hname : other = name
    · subst hname
      exact .inr (Bindings.get?_put_self _ _ _)
    · exact .inl (Bindings.get?_put_of_ne hname _ _)
  · exact .inl rfl

theorem next_define (s : ScopeId) (name : String) (v : Value) :
    (h.define s name v).next = h.next :=
  Array.size_modify

variable {h} in
theorem lookup_of_binding {s : ScopeId} {name : String} {v : Value}
    (hv : (h.bindings s).get? name = some v) : h.lookup s name = some v := by
  unfold lookup chain chainFrom
  rw [List.findSome?_cons, hv]

variable {h} in
theorem get?_define_self {s : ScopeId} (hs : s < h.next) (name other : String) (v : Value) :
    ((h.define s name v).bindings s).get? other =
      if other = name then some v else (h.bindings s).get? other := by
  rw [bindings, scope_define, if_pos ⟨rfl, hs⟩]
  split
  · rename_i heq
    rw [heq]
    exact Bindings.get?_put_self _ _ _
  · rename_i hne
    exact Bindings.get?_put_of_ne hne _ _

end Scopes

theorem Bindings.mem_of_get? {b : Bindings} {name : String} {v : Value}
    (h : b.get? name = some v) : (name, v) ∈ b := by
  induction b with
  | nil => cases h
  | cons e rest ih =>
    obtain ⟨n, w⟩ := e
    unfold Bindings.get? at h
    split at h
    · rename_i hn
      cases h
      rw [hn]
      exact List.mem_cons_self
    · exact List.mem_cons_of_mem _ (ih h)

/-! ### Closed regions -/

namespace Machine.Closed

variable {R : Region} {m m' : Machine} (hm : m.Closed R)
include hm

theorem of_leads (h : ∀ g k, m'.Leads g k → m.Leads g k ∨ k ∈ R) : m'.Closed R := by
  intro g hg k hk
  rcases h g k hk with hk | hk
  · exact hm g hg k hk
  · exact hk

/-- A handle can be added to a closed region if it leads into the region and the others lead where
they did. -/
theorem insert {n : Handle} (hnew : ∀ k, m'.Leads n k → k ∈ R)
    (hold : ∀ g k, g ≠ n → m'.Leads g k → m.Leads g k) : m'.Closed (insert n R) := by
  intro g hg k hk
  by_cases hgn : g = n
  · subst hgn
    exact Set.mem_insert_of_mem _ (hnew k hk)
  · have hgR : g ∈ R := Set.mem_of_mem_insert_of_ne hg hgn
    exact Set.mem_insert_of_mem _ (hm g hgR k (hold g k hgn hk))

/-- Only scopes, feeds and arguments of frames lead anywhere. -/
theorem congr (hs : m'.scopes = m.scopes) (hf : m'.feeds = m.feeds)
    (ha : m'.snapshots = m.snapshots) : m'.Closed R := by
  refine hm.of_leads fun g k hk => .inl ?_
  have hfeed : ∀ f, m'.feed f = m.feed f := fun f => by rw [feed, feed, hf]
  cases hk with
  | parent hp => exact .parent (hs ▸ hp)
  | binding hv hh => exact .binding (hs ▸ hv) hh
  | feedScope =>
    rw [hfeed]
    exact .feedScope
  | unit hv hh => exact .unit (hfeed _ ▸ hv) hh
  | argument hv hh =>
    rw [frameArgument?, ha] at hv
    exact .argument hv hh

theorem note (e : Event) : (m.note e).Closed R := by
  obtain ⟨journal, hnote⟩ := m.note_eq e
  rw [hnote]
  exact hm.congr rfl rfl rfl

theorem poll : m.poll.2.Closed R := by
  obtain ⟨_, _, _, _, hpoll⟩ := m.poll_eq
  rw [hpoll]
  exact hm.congr rfl rfl rfl

theorem chain {s : ScopeId} (hs : .scope s ∈ R) : ∀ t ∈ m.scopes.chain s, .scope t ∈ R := by
  unfold Scopes.chain
  generalize s + 1 = fuel
  induction fuel generalizing s with
  | zero => simp [Scopes.chainFrom]
  | succ fuel ih =>
    unfold Scopes.chainFrom
    refine List.forall_mem_cons.2 ⟨hs, ?_⟩
    cases hp : (m.scopes.scope s).parent with
    | none => simp
    | some p => exact ih (hm _ hs _ (.parent hp))

theorem lookup {s : ScopeId} (hs : .scope s ∈ R) (name : String) :
    Value.MaybeWithin R (m.lookup s name) := by
  intro v hv
  obtain ⟨t, ht, hv⟩ := List.exists_of_findSome?_eq_some hv
  exact fun h hh => hm _ (hm.chain hs t ht) h (.binding hv hh)

theorem binder {s t : ScopeId} (hs : .scope s ∈ R) {name : String}
    (ht : m.scopes.binder? s name = some t) : .scope t ∈ R :=
  hm.chain hs t (List.mem_of_find?_eq_some ht)

theorem define {t : ScopeId} {name : String} {v : Value} (hv : v.Within R) :
    ({ m with scopes := m.scopes.define t name v } : Machine).Closed R := by
  refine hm.of_leads fun g k hk => ?_
  cases hk with
  | parent hp => exact .inl (.parent ((m.scopes.parent_define _ _ _ _).symm.trans hp))
  | @binding s other w _ hw hh =>
    rcases m.scopes.get?_define t s name other v with h | h
    · exact .inl (.binding (h ▸ hw) hh)
    · obtain rfl : v = w := Option.some.inj (h.symm.trans hw)
      exact .inr (hv k hh)
  | feedScope => exact .inl .feedScope
  | unit hw hh => exact .inl (.unit hw hh)
  | argument hw hh => exact .inl (.argument hw hh)

theorem assign {s : ScopeId} {name : String} {v : Value} (hv : v.Within R) :
    (m.assign s name v).Closed R := by
  obtain ⟨_, h⟩ := m.assign_eq s name v
  rw [h]
  exact (hm.define hv).congr rfl rfl rfl

theorem updateFeed {id : FeedId} {f : Feed → Feed} (hscope : ∀ feed, (f feed).scope = feed.scope)
    (hunits : ∀ feed, (f feed).units ⊆ feed.units) : (m.updateFeed id f).Closed R := by
  refine hm.of_leads fun g k hk => .inl ?_
  cases hk with
  | parent hp => exact .parent hp
  | binding hv hh => exact .binding hv hh
  | @feedScope j =>
    rw [feed_updateFeed]
    split
    · rw [hscope]
      exact .feedScope
    · exact .feedScope
  | @unit j v _ hv hh =>
    rw [feed_updateFeed] at hv
    split at hv
    · exact .unit (hunits _ hv) hh
    · exact .unit hv hh
  | argument hv hh => exact .argument hv hh

theorem newScope {parent : Option ScopeId} (hp : ∀ p ∈ parent, .scope p ∈ R) :
    ({ m with scopes := m.scopes.make parent } : Machine).Closed
      (Insert.insert (.scope m.scopes.next) R) := by
  refine hm.insert (fun k hk => ?_) fun g k hg hk => ?_
  · cases hk with
    | parent hk =>
      rw [Scopes.scope_make, if_pos rfl] at hk
      exact hp _ hk
    | binding hv hh =>
      rw [Scopes.bindings, Scopes.scope_make, if_pos rfl] at hv
      cases hv
  · cases hk with
    | @parent s p hp =>
      have hs : s ≠ m.scopes.next := fun hs => hg (by rw [hs])
      rw [Scopes.scope_make, if_neg hs] at hp
      exact .parent hp
    | @binding s name v _ hv hh =>
      have hs : s ≠ m.scopes.next := fun hs => hg (by rw [hs])
      rw [Scopes.bindings, Scopes.scope_make, if_neg hs] at hv
      exact .binding hv hh
    | feedScope => exact .feedScope
    | unit hv hh => exact .unit hv hh
    | argument hv hh => exact .argument hv hh

theorem newFeed {units : List Value} {scope : ScopeId} (hs : .scope scope ∈ R)
    (hu : Value.AllWithin R units) :
    ({ m with feeds := m.feeds.push { units, scope } } : Machine).Closed
      (Insert.insert (.feed m.feeds.size) R) := by
  have hfeed : ∀ f, ({ m with feeds := m.feeds.push { units, scope } } : Machine).feed f =
      if f = m.feeds.size then { units, scope } else m.feed f := by
    intro f
    rw [feed_eq, feed_eq, Array.getElem?_push]
    split <;> rfl
  refine hm.insert (fun k hk => ?_) fun g k hg hk => ?_
  · cases hk with
    | feedScope =>
      rw [hfeed, if_pos rfl]
      exact hs
    | unit hv hh =>
      rw [hfeed, if_pos rfl] at hv
      exact hu _ hv _ hh
  · cases hk with
    | parent hp => exact .parent hp
    | binding hv hh => exact .binding hv hh
    | @feedScope f =>
      have hf : f ≠ m.feeds.size := fun hf => hg (by rw [hf])
      rw [hfeed, if_neg hf]
      exact .feedScope
    | @unit f v _ hv hh =>
      have hf : f ≠ m.feeds.size := fun hf => hg (by rw [hf])
      rw [hfeed, if_neg hf] at hv
      exact .unit hv hh
    | argument hv hh => exact .argument hv hh

theorem reify {id : FrameId} {arguments : Bindings} (ha : ∀ e ∈ arguments, e.2.Within R) :
    ({ m with snapshots := (id, arguments) :: m.snapshots } : Machine).Closed
      (Insert.insert (.frame id) R) := by
  refine hm.insert (fun k hk => ?_) fun g k hg hk => ?_
  · cases hk with
    | argument hv hh =>
      simp only [frameArgument?, List.find?_cons_of_pos, beq_self_eq_true, Option.bind_some] at hv
      exact ha _ (Bindings.mem_of_get? hv) _ hh
  · cases hk with
    | parent hp => exact .parent hp
    | binding hv hh => exact .binding hv hh
    | feedScope => exact .feedScope
    | unit hv hh => exact .unit hv hh
    | @argument j name v _ hv hh =>
      have hj : id ≠ j := fun hj => hg (by rw [hj])
      have hv : m.frameArgument? j name = some v := by simpa [frameArgument?, hj] using hv
      exact .argument hv hh

end Machine.Closed

theorem Feed.units_advance_subset (f : Feed) : f.advance.units ⊆ f.units := by
  unfold Feed.advance
  split
  · exact List.Subset.refl _
  · rename_i hu
    rw [hu]
    exact List.subset_cons_self _ _

/-- What a command within a closed region adds to it. -/
def Command.grown (m : Machine) : {β : Type} → Command β → Region → Region
  | _, .newScope _, R => insert (.scope m.scopes.next) R
  | _, .newFeed _ _, R => insert (.feed m.feeds.size) R
  | _, .reify id _, R => insert (.frame id) R
  | _, _, R => R

/-- The answer to a command within a closed region lies in the region with what the command made,
and that region is closed again. -/
theorem Command.run_closed {β : Type} (c : Command β) {R : Region} {m : Machine} (hm : m.Closed R)
    (hc : c.Within R) :
    c.Answers (c.grown m R) (c.run m).1 ∧ (c.run m).2.Closed (c.grown m R) := by
  cases c with
  | lookup scope name => exact ⟨hm.lookup hc name, hm⟩
  | newScope parent => exact ⟨Set.mem_insert _ _, hm.newScope hc⟩
  | define scope name v => exact ⟨trivial, hm.define hc.2⟩
  | assign scope name v => exact ⟨trivial, hm.assign hc.2⟩
  | newFeed units scope => exact ⟨Set.mem_insert _ _, hm.newFeed hc.1 hc.2⟩
  | scopeOf id => exact ⟨hm _ hc _ .feedScope, hm⟩
  | peek id => exact ⟨fun v hv h hh => hm _ hc h (.unit (List.mem_of_head? hv) hh), hm⟩
  | peekNext id => exact ⟨fun v hv h hh => hm _ hc h (.unit (List.mem_of_getElem? hv) hh), hm⟩
  | advance id => exact ⟨trivial, hm.updateFeed Feed.scope_advance Feed.units_advance_subset⟩
  | setNoLookahead id b =>
    exact ⟨trivial, hm.updateFeed (fun _ => rfl) fun _ => List.Subset.refl _⟩
  | setDeferring id b =>
    exact ⟨trivial, hm.updateFeed (fun _ => rfl) fun _ => List.Subset.refl _⟩
  | reify id arguments => exact ⟨Set.mem_insert _ _, hm.reify hc⟩
  | frameArgument id name => exact ⟨fun v hv h hh => hm _ hc h (.argument hv hh), hm⟩
  | poll =>
    refine ⟨fun s hs => ?_, hm.poll⟩
    rw [m.poll_signal hs]
    exact Value.within_null
  | note e => exact ⟨trivial, hm.note e⟩
  | noteState id state =>
    refine ⟨trivial, ?_⟩
    simp only [run]
    split
    · exact hm.note _
    · exact hm
  | freshIdentity | requestStop | printLine | takePrinted =>
    exact ⟨trivial, hm.congr rfl rfl rfl⟩
  | _ => exact ⟨trivial, hm⟩

/-! ### The scopes of feeds -/

theorem Command.run_next {β : Type} (c : Command β) (m : Machine) :
    m.scopes.next ≤ (c.run m).2.scopes.next := by
  cases c with
  | newScope parent => simp [Command.run, Scopes.make, Scopes.next]
  | define scope name v => exact Nat.le_of_eq (m.scopes.next_define _ _ _).symm
  | assign scope name v =>
    exact Nat.le_of_eq (m.scopes.next_define _ _ _).symm
  | poll =>
    obtain ⟨_, _, _, _, hpoll⟩ := m.poll_eq
    rw [Command.run, hpoll]
  | note e => rw [Command.run, Machine.note_scopes]
  | noteState id state =>
    simp only [Command.run]
    split
    · rw [Machine.note_scopes]
    · exact Nat.le_refl _
  | _ => exact Nat.le_refl _

theorem Machine.scope_updateFeed (m : Machine) (id j : FeedId) {f : Feed → Feed}
    (hf : ∀ feed, (f feed).scope = feed.scope) :
    ((m.updateFeed id f).feed j).scope = (m.feed j).scope := by
  rw [feed_updateFeed]
  split
  · exact hf _
  · rfl

theorem Command.run_feedScope {β : Type} (c : Command β) (m : Machine) {id : FeedId}
    (hid : id < m.feeds.size) : ((c.run m).2.feed id).scope = (m.feed id).scope := by
  cases c with
  | newFeed units scope =>
    rw [Machine.feed_eq, Machine.feed_eq, Command.run, Array.getElem?_push_lt hid,
      Array.getElem?_eq_getElem hid]
  | advance j => exact m.scope_updateFeed j id Feed.scope_advance
  | setNoLookahead j b => exact m.scope_updateFeed j id fun _ => rfl
  | setDeferring j b => exact m.scope_updateFeed j id fun _ => rfl
  | assign scope name v =>
    obtain ⟨_, h⟩ := m.assign_eq scope name v
    rw [Command.run, h]
    rfl
  | poll =>
    obtain ⟨_, _, _, _, h⟩ := m.poll_eq
    rw [Command.run, h]
    rfl
  | note e =>
    obtain ⟨_, h⟩ := m.note_eq e
    rw [Command.run, h]
    rfl
  | noteState frame state =>
    simp only [Command.run]
    split
    · obtain ⟨_, h⟩ := m.note_eq (.stepState m.tick frame state)
      rw [h]
      rfl
    · rfl
  | _ => rfl

theorem Eval.run_next {α : Type} (x : Eval α) (m : Machine) :
    m.scopes.next ≤ (x m).2.scopes.next := by
  refine ((x.trace_connected m).invariant (P := fun n => m.scopes.next ≤ n.scopes.next)
    (fun k _ hk => Nat.le_trans hk ?_) (Nat.le_refl _)).2
  cases k with
  | asked c n => exact c.run_next n
  | _ => exact Nat.le_refl _

theorem Eval.run_feedScope {α : Type} (x : Eval α) {m : Machine} {id : FeedId}
    (hid : id < m.feeds.size) : ((x m).2.feed id).scope = (m.feed id).scope := by
  refine ((x.trace_connected m).invariant
    (P := fun n => id < n.feeds.size ∧ (n.feed id).scope = (m.feed id).scope)
    (fun k _ hk => ⟨Nat.lt_of_lt_of_le hk.1 k.feeds.size_le, ?_⟩) ⟨hid, rfl⟩).2.2
  cases k with
  | asked c n => exact (c.run_feedScope n hk.1).trans hk.2
  | _ => exact hk.2

structure Machine.Placed (m : Machine) (id : FeedId) : Prop where
  feed_lt : id < m.feeds.size
  scope_lt : (m.feed id).scope < m.scopes.next

theorem Machine.Placed.run {α : Type} {m : Machine} {id : FeedId} (h : m.Placed id) (x : Eval α) :
    (x m).2.Placed id := by
  refine ⟨Nat.lt_of_lt_of_le h.feed_lt (x.run_feeds m).size_le, ?_⟩
  rw [x.run_feedScope h.feed_lt]
  exact Nat.lt_of_lt_of_le h.scope_lt (x.run_next m)

end Homoicon
