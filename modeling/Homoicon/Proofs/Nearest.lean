import Mathlib.Logic.Relation
import Homoicon.Proofs.Defaulting

/-!
# The nearest binding

What a name means in a scope is decided by the nearest scope around it that binds the name.  Lookup
finds that binding, assignment changes it and no other, and the visible names are those that have
one.  All this is said through the parents of scopes alone, for every heap that the operations on
scopes can build.
-/

namespace Homoicon

theorem nodup_eraseDups {α : Type} [BEq α] [LawfulBEq α] (xs : List α) : xs.eraseDups.Nodup := by
  induction hn : xs.length using Nat.strong_induction_on generalizing xs with
  | _ n ih =>
    cases xs with
    | nil => exact List.nodup_nil
    | cons x xs =>
      rw [List.eraseDups_cons, List.nodup_cons]
      constructor
      · rw [List.mem_eraseDups, List.mem_filter]
        rintro ⟨-, hx⟩
        simp at hx
      · have hle := List.length_filter_le (fun y => !y == x) xs
        rw [List.length_cons] at hn
        exact ih _ (by omega) _ rfl

namespace Scopes

/-! ### Heaps -/

/-- The heaps that the operations on scopes build. -/
inductive Built : Scopes → Prop
  | empty : Built {}
  | root {h : Scopes} (built : Built h) : Built (h.make none)
  | child {h : Scopes} (built : Built h) {p : ScopeId} (hp : p < h.next) : Built (h.make (some p))
  | define {h : Scopes} (built : Built h) {s : ScopeId} (hs : s < h.next) (name : String)
    (v : Value) : Built (h.define s name v)
  | assign {h : Scopes} (built : Built h) {s : ScopeId} (hs : s < h.next) (name : String)
    (v : Value) : Built (h.assign s name v)

/-- Every scope is made later than its parent. -/
def Ordered (h : Scopes) : Prop := ∀ s p, (h.scope s).parent = some p → p < s

theorem Ordered.define {h : Scopes} (ordered : h.Ordered) (t : ScopeId) (name : String)
    (v : Value) : (h.define t name v).Ordered := by
  intro s p hp
  rw [parent_define] at hp
  exact ordered s p hp

theorem Ordered.make {h : Scopes} (ordered : h.Ordered) {parent : Option ScopeId}
    (hparent : ∀ p ∈ parent, p < h.next) : (h.make parent).Ordered := by
  intro s p hp
  rw [scope_make] at hp
  split at hp
  · rename_i hs
    rw [hs]
    exact hparent p hp
  · exact ordered s p hp

theorem Built.ordered {h : Scopes} (built : h.Built) : h.Ordered := by
  induction built with
  | empty =>
    intro s p hp
    rw [scope_eq] at hp
    simp at hp
  | root _ ih => exact ih.make (by simp)
  | child _ hp ih => exact ih.make (by simpa using hp)
  | define _ _ name v ih => exact ih.define _ name v
  | assign _ _ name v ih => exact ih.define _ name v

/-! ### Around a scope -/

variable {h : Scopes} {s t u : ScopeId} {name : String} {v : Value}

/-- `t` is `s` or one of the scopes around it. -/
def Around (h : Scopes) : ScopeId → ScopeId → Prop :=
  Relation.ReflTransGen fun s p => (h.scope s).parent = some p

theorem Around.le (ordered : h.Ordered) (hst : h.Around s t) : t ≤ s := by
  induction hst with
  | refl => exact Nat.le_refl s
  | tail _ hp ih => exact Nat.le_trans (Nat.le_of_lt (ordered _ _ hp)) ih

theorem around_define (h : Scopes) (t : ScopeId) (name : String) (v : Value) :
    (h.define t name v).Around = h.Around := by
  unfold Around
  simp only [parent_define]

/-- Any fuel beyond the number of a scope is enough for its whole chain. -/
theorem chainFrom_eq_chain (ordered : h.Ordered) {fuel : Nat} (hs : s < fuel) :
    h.chainFrom fuel s = h.chain s := by
  induction s using Nat.strong_induction_on generalizing fuel with
  | _ s ih =>
    cases fuel with
    | zero => exact absurd hs (Nat.not_lt_zero s)
    | succ fuel =>
      unfold chain
      unfold chainFrom
      cases hp : (h.scope s).parent with
      | none => rfl
      | some p =>
        have hlt := ordered s p hp
        have hp' : p < fuel := Nat.lt_of_lt_of_le hlt (Nat.le_of_lt_succ hs)
        exact congrArg (s :: ·) ((ih p hlt hp').trans (ih p hlt hlt).symm)

theorem chain_root (hp : (h.scope s).parent = none) : h.chain s = [s] := by
  unfold chain chainFrom
  rw [hp]

theorem chain_child (ordered : h.Ordered) {p : ScopeId} (hp : (h.scope s).parent = some p) :
    h.chain s = s :: h.chain p := by
  unfold chain
  rw [chainFrom, hp]
  exact congrArg (s :: ·) (chainFrom_eq_chain ordered (ordered s p hp))

theorem chain_head (h : Scopes) (s : ScopeId) : ∃ outer, h.chain s = s :: outer := ⟨_, rfl⟩

theorem chain_of_append (ordered : h.Ordered) {inner outer : List ScopeId}
    (hchain : h.chain s = inner ++ t :: outer) : h.chain t = t :: outer := by
  induction inner generalizing s with
  | nil =>
    obtain ⟨rest, hrest⟩ := chain_head h s
    rw [hrest] at hchain
    cases hchain
    exact hrest
  | cons u inner ih =>
    cases hp : (h.scope s).parent with
    | none =>
      rw [chain_root hp] at hchain
      simp at hchain
    | some p =>
      rw [chain_child ordered hp, List.cons_append] at hchain
      exact ih (List.cons.inj hchain).2

theorem mem_chain_iff (ordered : h.Ordered) : t ∈ h.chain s ↔ h.Around s t := by
  constructor
  · intro ht
    induction s using Nat.strong_induction_on with
    | _ s ih =>
      cases hp : (h.scope s).parent with
      | none =>
        rw [chain_root hp, List.mem_singleton] at ht
        rw [ht]
        exact .refl
      | some p =>
        rw [chain_child ordered hp, List.mem_cons] at ht
        rcases ht with rfl | ht
        · exact .refl
        · exact .head hp (ih p (ordered s p hp) ht)
  · intro hst
    induction hst using Relation.ReflTransGen.head_induction_on with
    | refl =>
      obtain ⟨_, hchain⟩ := chain_head h t
      rw [hchain]
      exact List.mem_cons_self
    | head hp _ ih =>
      rw [chain_child ordered hp]
      exact List.mem_cons_of_mem _ ih

/-! ### The nearest binder -/

/-- `t` is the nearest scope around `s` that binds the name: every other one is further out. -/
structure Nearest (h : Scopes) (name : String) (s t : ScopeId) : Prop where
  around : h.Around s t
  binds : h.bindsLocally t name = true
  first : ∀ u, h.Around s u → h.bindsLocally u name = true → h.Around t u

/-- No scope around `s` binds the name. -/
def Unbound (h : Scopes) (name : String) (s : ScopeId) : Prop :=
  ∀ t, h.Around s t → h.bindsLocally t name = false

theorem Nearest.unique (ordered : h.Ordered) (ht : h.Nearest name s t) (hu : h.Nearest name s u) :
    t = u :=
  Nat.le_antisymm ((hu.first t ht.around ht.binds).le ordered)
    ((ht.first u hu.around hu.binds).le ordered)

theorem binder?_eq_none_iff (ordered : h.Ordered) :
    h.binder? s name = none ↔ h.Unbound name s := by
  unfold binder? Unbound
  rw [List.find?_eq_none]
  simp only [mem_chain_iff ordered, Bool.not_eq_true]

theorem nearest_of_binder? (ordered : h.Ordered) (hbinder : h.binder? s name = some t) :
    h.Nearest name s t := by
  obtain ⟨hbinds, inner, outer, hchain, hinner⟩ := List.find?_eq_some_iff_append.1 hbinder
  refine ⟨(mem_chain_iff ordered).1 (List.mem_of_find?_eq_some hbinder), hbinds, ?_⟩
  intro u hu hubinds
  rw [← mem_chain_iff ordered, hchain, List.mem_append] at hu
  rcases hu with hu | hu
  · have hfree := hinner u hu
    rw [hubinds] at hfree
    cases hfree
  · rw [← mem_chain_iff ordered, chain_of_append ordered hchain]
    exact hu

theorem binder?_eq_some_iff (ordered : h.Ordered) :
    h.binder? s name = some t ↔ h.Nearest name s t := by
  refine ⟨nearest_of_binder? ordered, fun ht => ?_⟩
  cases hbinder : h.binder? s name with
  | none =>
    have hfree := (binder?_eq_none_iff ordered).1 hbinder t ht.around
    rw [ht.binds] at hfree
    cases hfree
  | some u => rw [(nearest_of_binder? ordered hbinder).unique ordered ht]

/-! ### Lookup -/

theorem lookup_eq_binder? (h : Scopes) (s : ScopeId) (name : String) :
    h.lookup s name = (h.binder? s name).bind fun t => (h.bindings t).get? name := by
  unfold lookup binder?
  induction h.chain s with
  | nil => rfl
  | cons t outer ih =>
    rw [List.findSome?_cons, List.find?_cons, bindsLocally]
    cases hget : (h.bindings t).get? name with
    | none => exact ih
    | some v => simp [hget]

theorem lookup_eq_some_iff (ordered : h.Ordered) :
    h.lookup s name = some v ↔ ∃ t, h.Nearest name s t ∧ (h.bindings t).get? name = some v := by
  rw [lookup_eq_binder?, Option.bind_eq_some_iff]
  simp only [binder?_eq_some_iff ordered]

theorem lookup_isSome_iff : (h.lookup s name).isSome = true ↔
    ∃ t ∈ h.chain s, ((h.bindings t).get? name).isSome = true := by
  unfold lookup
  rw [List.findSome?_isSome_iff]

theorem mem_names_iff : name ∈ h.names s ↔ (h.lookup s name).isSome = true := by
  unfold names
  rw [List.mem_eraseDups, List.mem_flatMap, lookup_isSome_iff]
  simp only [Bindings.get?_isSome_iff]

/-! ### Assignment -/

theorem bindsLocally_define_of_ne (hne : u ≠ t) (other : String) :
    (h.define t name v).bindsLocally u other = h.bindsLocally u other := by
  rw [bindsLocally, bindsLocally, get?_define_of_ne (.inl hne)]

theorem bindsLocally_define_self (ht : t < h.next) : (h.define t name v).bindsLocally t name = true := by
  rw [bindsLocally, get?_define_self ht, if_pos rfl]
  rfl

theorem scope_define_of_ne (hne : u ≠ t) : (h.define t name v).scope u = h.scope u := by
  rw [scope_define, if_neg fun hu => hne hu.1.symm]

theorem lookup_define_of_ne {other : String} (hne : other ≠ name) (t u : ScopeId) (v : Value) :
    (h.define t name v).lookup u other = h.lookup u other := by
  unfold lookup
  rw [chain_define]
  simp only [get?_define_of_ne (.inr hne)]

theorem bindsLocally_define {other : String} (hu : h.bindsLocally u other = true) (t : ScopeId)
    (name : String) (v : Value) : (h.define t name v).bindsLocally u other = true := by
  unfold bindsLocally at hu ⊢
  rcases get?_define h t u name other v with hsame | hnew
  · rw [hsame]
    exact hu
  · rw [hnew]
    rfl

theorem lookup_define_of_not_nearest (ordered : h.Ordered)
    (hu : ¬(h.define t name v).Nearest name u t) :
    (h.define t name v).lookup u name = h.lookup u name := by
  have hordered : (h.define t name v).Ordered := ordered.define t name v
  rw [lookup_eq_binder?, lookup_eq_binder?]
  cases hbinder : (h.define t name v).binder? u name with
  | none =>
    have hfree := (binder?_eq_none_iff hordered).1 hbinder
    have hbefore : h.Unbound name u := by
      intro w hw
      by_contra hbinds
      rw [Bool.not_eq_false] at hbinds
      rw [← around_define h t name v] at hw
      have hstill := bindsLocally_define hbinds t name v
      rw [hfree w hw] at hstill
      cases hstill
    rw [(binder?_eq_none_iff ordered).2 hbefore]
    rfl
  | some w =>
    have hnearest := (binder?_eq_some_iff hordered).1 hbinder
    have hne : w ≠ t := by
      rintro rfl
      exact hu hnearest
    have hbefore : h.Nearest name u w := by
      obtain ⟨haround, hbinds, hfirst⟩ := hnearest
      rw [around_define] at haround hfirst
      rw [bindsLocally_define_of_ne hne] at hbinds
      exact ⟨haround, hbinds, fun x hx hb => hfirst x hx (bindsLocally_define hb t name v)⟩
    rw [(binder?_eq_some_iff ordered).2 hbefore, Option.bind_some, Option.bind_some]
    exact get?_define_of_ne (.inl hne)

/-- `h'` is `h` with the value `v` for a name as seen from `s`.  It is bound in `t`, which is the
nearest scope that binds the name, or `s` if there is none, and nothing else is bound anew. -/
structure AssignsIn (h : Scopes) (s : ScopeId) (name : String) (v : Value) (h' : Scopes)
    (t : ScopeId) : Prop where
  target : h.Nearest name s t ∨ h.Unbound name s ∧ t = s
  bound : (h'.bindings t).get? name = some v
  others : ∀ other ≠ name, (h'.bindings t).get? other = (h.bindings t).get? other
  parent : (h'.scope t).parent = (h.scope t).parent
  elsewhere : ∀ u ≠ t, h'.scope u = h.scope u
  found : h'.lookup s name = some v
  /-- From everywhere, another name is looked up as before. -/
  unaffected : ∀ u, ∀ other ≠ name, h'.lookup u other = h.lookup u other
  /-- The name itself is looked up as before, but where `t` now is its nearest binder. -/
  affected : ∀ u, h'.lookup u name = h.lookup u name ∨
    h'.Nearest name u t ∧ h'.lookup u name = some v

theorem assignsIn_define (ordered : h.Ordered) (ht : t < h.next)
    (target : h.Nearest name s t ∨ h.Unbound name s ∧ t = s) :
    h.AssignsIn s name v (h.define t name v) t := by
  have hordered : (h.define t name v).Ordered := ordered.define t name v
  have hbound : ((h.define t name v).bindings t).get? name = some v := by
    rw [get?_define_self ht, if_pos rfl]
  have hnearest : (h.define t name v).Nearest name s t := by
    rcases target with hst | ⟨hfree, rfl⟩
    · refine ⟨?_, bindsLocally_define_self ht, ?_⟩
      · rw [around_define]
        exact hst.around
      · intro u hu hbinds
        rw [around_define] at hu ⊢
        by_cases hut : u = t
        · rw [hut]
          exact .refl
        · rw [bindsLocally_define_of_ne hut] at hbinds
          exact hst.first u hu hbinds
    · exact ⟨.refl, bindsLocally_define_self ht, fun u hu _ => hu⟩
  refine ⟨target, hbound, ?_, parent_define h t t name v, ?_, ?_, ?_, ?_⟩
  · intro other hother
    exact get?_define_of_ne (.inr hother)
  · intro u hu
    exact scope_define_of_ne hu
  · exact (lookup_eq_some_iff hordered).2 ⟨t, hnearest, hbound⟩
  · intro u other hother
    exact lookup_define_of_ne hother t u v
  · intro u
    by_cases hu : (h.define t name v).Nearest name u t
    · exact .inr ⟨hu, (lookup_eq_some_iff hordered).2 ⟨t, hu, hbound⟩⟩
    · exact .inl (lookup_define_of_not_nearest ordered hu)

/-- In every heap that the operations on scopes build, a name has the value that the nearest scope
around gives it, an assignment changes the binding of that scope, or makes one where the name is
assigned if there is none, and no other, and the visible names are listed once each. -/
theorem nearest_binding (built : h.Built) :
    (∀ s name v, h.lookup s name = some v ↔
      ∃ t, h.Nearest name s t ∧ (h.bindings t).get? name = some v) ∧
    (∀ s < h.next, ∀ name v, ∃ t < h.next, h.AssignsIn s name v (h.assign s name v) t) ∧
    ∀ s, (h.names s).Nodup ∧ ∀ name, name ∈ h.names s ↔ (h.lookup s name).isSome = true := by
  have ordered := built.ordered
  refine ⟨fun s name v => lookup_eq_some_iff ordered, fun s hs name v => ?_, fun s =>
    ⟨nodup_eraseDups _, fun name => mem_names_iff⟩⟩
  unfold assign
  cases hbinder : h.binder? s name with
  | some t =>
    have hnearest := (binder?_eq_some_iff ordered).1 hbinder
    have ht : t < h.next := lt_next_of_binds hnearest.binds
    exact ⟨t, ht, assignsIn_define ordered ht (.inl hnearest)⟩
  | none =>
    have hfree := (binder?_eq_none_iff ordered).1 hbinder
    exact ⟨s, hs, assignsIn_define ordered hs (.inr ⟨hfree, rfl⟩)⟩

/-- A root that binds `x`, two scopes in it, of which the second binds `x` too, and one in the
first. -/
def branching : Scopes :=
  (((((({} : Scopes).make none).define 0 "x" (.integer 1)).make (some 0)).make (some 0)).define 2 "x"
    (.integer 2)).make (some 1)

/-- An assignment in the innermost scope reaches the root, and is seen from the scope between, but
not from the one that has a binding of its own. -/
theorem nearest_binding_branching : branching.Built ∧ 3 < branching.next ∧
    (branching.assign 3 "x" (.integer 5)).lookup 3 "x" = some (.integer 5) ∧
    (branching.assign 3 "x" (.integer 5)).lookup 1 "x" = some (.integer 5) ∧
    (branching.assign 3 "x" (.integer 5)).lookup 2 "x" = some (.integer 2) ∧
    (branching.names 3).Nodup := by
  have built : branching.Built :=
    .child (.define (.child (.child (.define (.root .empty) (by decide) _ _) (by decide))
      (by decide)) (by decide) _ _) (by decide)
  have hnext : 3 < branching.next := by decide
  obtain ⟨-, hassign, hnames⟩ := nearest_binding built
  obtain ⟨t, -, ht⟩ := hassign 3 hnext "x" (.integer 5)
  exact ⟨built, hnext, ht.found, rfl, rfl, (hnames 3).1⟩

end Scopes

end Homoicon
