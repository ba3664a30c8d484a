import Homoicon.Proofs.Isolation
import Homoicon.Evaluate.Operation.Access

/-!
# Assigning a default

`default` looks at its target first.  A value that is there stays, and is the result; otherwise the
branch is run and its value is assigned.  A word and an element under a fixed key are then where they
were looked for.  A key that is a group is evaluated anew for the assignment, so the element that is
assigned is the one that the key selects the second time.
-/

namespace Homoicon

/-! ### Assigning to a name -/

namespace Scopes

variable {h : Scopes} {s t : ScopeId} {name : String} {v : Value}

theorem chain_define (h : Scopes) (t s : ScopeId) (name : String) (v : Value) :
    (h.define t name v).chain s = h.chain s := by
  unfold chain
  generalize s + 1 = fuel
  induction fuel generalizing s with
  | zero => rfl
  | succ fuel ih =>
    unfold chainFrom
    rw [parent_define]
    cases (h.scope s).parent with
    | none => rfl
    | some p => exact congrArg (s :: ·) (ih p)

theorem get?_define_of_ne {u : ScopeId} {other : String} (hne : u ≠ t ∨ other ≠ name) :
    ((h.define t name v).bindings u).get? other = (h.bindings u).get? other := by
  rw [bindings, scope_define]
  split
  · rename_i hu
    have hother : other ≠ name := hne.resolve_left fun hu' => hu' hu.1.symm
    exact Bindings.get?_put_of_ne hother _ _
  · rfl

theorem lt_next_of_binds (ht : h.bindsLocally t name = true) : t < h.next := by
  by_contra hle
  rw [bindsLocally, bindings, scope_eq, Array.getElem?_eq_none (Nat.le_of_not_lt hle)] at ht
  cases ht

theorem lookup_define_binder (hbinder : h.binder? s name = some t) :
    (h.define t name v).lookup s name = some v := by
  obtain ⟨hbinds, inner, outer, hchain, hinner⟩ := List.find?_eq_some_iff_append.1 hbinder
  have hnone : inner.findSome? (fun u => ((h.define t name v).bindings u).get? name) = none := by
    rw [List.findSome?_eq_none_iff]
    intro u hu
    have hu' := hinner u hu
    have hne : u ≠ t := by
      rintro rfl
      rw [hbinds] at hu'
      cases hu'
    rw [get?_define_of_ne (.inl hne)]
    simpa [bindsLocally] using hu'
  rw [lookup, chain_define, hchain, List.findSome?_append, hnone, Option.none_or,
    List.findSome?_cons, get?_define_self (lt_next_of_binds hbinds), if_pos rfl]

end Scopes

/-- The scope that an assignment to a name goes to. -/
def Machine.home (m : Machine) (s : ScopeId) (name : String) : ScopeId :=
  (m.scopes.binder? s name).getD s

/-- `m'` differs from `m` in that the name, as seen from the scope `s`, has the value `v`, and in no
other binding. -/
structure Machine.Rebinds (m : Machine) (s : ScopeId) (name : String) (v : Value) (m' : Machine) :
    Prop where
  bound : m'.lookup s name = some v
  other : ∀ t n, t ≠ m.home s name ∨ n ≠ name →
    (m'.scopes.bindings t).get? n = (m.scopes.bindings t).get? n

theorem Machine.rebinds_assign {m : Machine} {s : ScopeId} (hs : s < m.scopes.next) (name : String)
    (v : Value) : m.Rebinds s name v (m.assign s name v) := by
  have hassign : (m.assign s name v).scopes = m.scopes.define (m.home s name) name v :=
    m.assign_scopes s name v
  constructor
  · rw [lookup, hassign, home]
    cases hbinder : m.scopes.binder? s name with
    | some t => exact Scopes.lookup_define_binder hbinder
    | none =>
      have hbound := Scopes.get?_define_self hs name name v
      exact Scopes.lookup_of_binding (hbound.trans (if_pos rfl))
  · intro t n hne
    rw [hassign]
    exact Scopes.get?_define_of_ne hne

/-! ### Assigning to an element -/

section Elements

variable {items : List Value} {key v : Value} {i : Nat}

theorem selectIndex?_set {name : String} (hi : selectIndex? items name = some i) (v : Value) :
    selectIndex? (items.set i v) name = some i := by
  obtain ⟨k, hk, rfl⟩ := Option.map_eq_some_iff.1 hi
  obtain ⟨hlt, hfound, hbefore⟩ := List.findIdx?_eq_some_iff_getElem.1 hk
  refine Option.map_eq_some_iff.2 ⟨k, List.findIdx?_eq_some_iff_getElem.2 ⟨?_, ?_, ?_⟩, rfl⟩
  · rwa [List.length_set]
  · rwa [List.getElem_set_ne (Nat.succ_ne_self k)]
  · intro j hj
    rw [List.getElem_set_ne (by omega)]
    exact hbefore j hj

theorem pickItem?_set (hi : assignIndex? items key = some i) :
    pickItem? (.block (items.set i v)) key = some v := by
  obtain ⟨hindex, hlt⟩ := Option.filter_eq_some_iff.1 hi
  have hget : ((items.set i v)[i]?).getD .null = v := by
    rw [List.getElem?_set_self (by simpa using hlt), Option.getD_some]
  cases key with
  | integer n =>
    have hposition : position? n = some i := hindex
    rw [pickItem?, hposition, Option.map_some, hget]
  | word name =>
    rw [pickItem?, selectIndex?_set hindex, Option.map_some, hget]
  | _ => cases hindex

end Elements

/-! ### The target -/

abbrev Machine.scopeAt (m : Machine) (feed : FeedId) : ScopeId := (m.feed feed).scope

/-- What `default` finds at its target, and the machine behind that.  The target is evaluated once, a
key that is a group with it. -/
inductive Tested (ev : Evaluator) (c : Call) (m : Machine) : Option Value → Machine → Prop
  | word {name : String} (target : c.slot 0 = .setWord name) :
    Tested ev c m (m.lookup (m.scopeAt c.frame.feed) name) m
  | path {items : List Value} {v : Value} {m₁ : Machine} (target : c.slot 0 = .setPath items)
    (read : ev.evalPath c.frame.feed items false m = (.done (.value v), m₁)) :
    Tested ev c m (some v) m₁

/-- What the assignment of `v` to the target of `default` makes of a machine: only the word or the
element has another value than before.  A key that is a group is evaluated here once more. -/
inductive Assigned (ev : Evaluator) (c : Call) (v : Value) (m m' : Machine) : Prop
  | word {name : String} (target : c.slot 0 = .setWord name)
    (rebinds : m.Rebinds (m.scopeAt c.frame.feed) name v m')
  | element {head : String} {segment key : Value} {block : List Value} {i : Nat} {m₁ : Machine}
    (target : c.slot 0 = .setPath [.word head, segment])
    (keyed : ev.segmentKey c.frame.feed segment m = (.done key, m₁))
    (found : m₁.lookup (m₁.scopeAt c.frame.feed) head = some (.block block))
    (index : assignIndex? block key = some i)
    (rebinds : m₁.Rebinds (m₁.scopeAt c.frame.feed) head (.block (block.set i v)) m')
    (holds : pickItem? (.block (block.set i v)) key = some v)

namespace Evaluator

variable {ev : Evaluator} {c : Call} {feed : FeedId} {m m' : Machine} {v : Value}

theorem resolve_run {name : String} :
    Eval.resolve feed name m =
      match m.lookup (m.scopeAt feed) name with
      | none => (.failed (.of (.unboundName name)), m)
      | some .void => (.failed (.of (.voidRead name)), m)
      | some v => (.done v, m) := by
  simp only [Eval.resolve, Eval.resolveGet, Eval.scopeOf, Eval.lookup, Eval.run_bind,
    Eval.run_command, Command.run]
  cases m.lookup (m.scopeAt feed) name with
  | none => rfl
  | some v => cases v <;> rfl

theorem resolve_eq_done {name : String} (h : Eval.resolve feed name m = (.done v, m')) :
    m' = m ∧ m.lookup (m.scopeAt feed) name = some v := by
  rw [resolve_run] at h
  split at h
  · cases h
  · cases h
  · rename_i w _ hw
    cases h
    exact ⟨rfl, hw⟩

theorem segmentKey_of_fixed {segment : Value} (fixed : ∀ items, segment ≠ .group items) :
    ev.segmentKey feed segment = pure segment := by
  cases segment with
  | group items => exact absurd rfl (fixed items)
  | _ => rfl

theorem evalPath_element {head : String} {segment : Value} {block : List Value} {invoke : Bool}
    (hhead : m.lookup (m.scopeAt feed) head = some (.block block))
    (fixed : ∀ items, segment ≠ .group items) (hpick : pickItem? (.block block) segment = some v) :
    ev.evalPath feed [.word head, segment] invoke m = (.done (.value v), m) := by
  have hresolve : Eval.resolve feed head m = (.done (.block block), m) := by
    rw [resolve_run, hhead]
  have hstart : ev.pathHead feed [.word head, segment] (.word head) m =
      (.done (.block block, head), m) := by
    unfold pathHead
    exact Eval.run_bind_of_done hresolve
  have halong : ev.pickAlong feed [.word head, segment] (.block block) [segment] m =
      (.done v, m) := by
    have hkey : ev.segmentKey feed segment m = (.done segment, m) := by
      rw [segmentKey_of_fixed fixed]
      rfl
    have hpicked : pick (.block block) segment m = (.done (some v), m) := by
      rw [← hpick]
      rfl
    unfold pickAlong
    rw [Eval.run_bind_of_done hkey, Eval.run_bind_of_done hpicked]
    rfl
  unfold evalPath
  simp only
  rw [Eval.run_bind_of_done hstart]
  exact Eval.run_bind_of_done halong

theorem defaultTarget_tested {current : Option Value}
    (h : ev.defaultTarget c m = (.done current, m')) : Tested ev c m current m' := by
  unfold defaultTarget at h
  split at h
  · rename_i name htarget
    cases h
    exact .word htarget
  · rename_i items htarget
    obtain ⟨outcome, m₁, hread, h⟩ := Eval.run_bind_eq_done.1 h
    cases outcome with
    | value v =>
      cases h
      exact .path htarget hread
    | call p => cases h
  · cases h

theorem assignPath_eq_done {items : List Value} {u : Unit}
    (placed : m.Placed feed) (h : ev.assignPath feed items v m = (.done u, m')) :
    ∃ head segment key block i m₁, items = [.word head, segment] ∧
      ev.segmentKey feed segment m = (.done key, m₁) ∧
      m₁.lookup (m₁.scopeAt feed) head = some (.block block) ∧ assignIndex? block key = some i ∧
      m₁.Rebinds (m₁.scopeAt feed) head (.block (block.set i v)) m' := by
  unfold assignPath at h
  split at h
  · rename_i head segment
    obtain ⟨key, m₁, hkey, h⟩ := Eval.run_bind_eq_done.1 h
    obtain ⟨container, m₂, hresolve, hassign⟩ := Eval.run_bind_eq_done.1 h
    obtain ⟨rfl, hlookup⟩ := resolve_eq_done hresolve
    have placed₁ := placed.run (ev.segmentKey feed segment)
    rw [hkey] at placed₁
    split at hassign
    · rename_i block
      split at hassign
      · rename_i i hi
        cases hassign
        exact ⟨head, segment, key, block, i, _, rfl, hkey, hlookup, hi,
          Machine.rebinds_assign placed₁.scope_lt head _⟩
      · cases hassign
    · cases hassign
  · cases h

/-- The key of the target, if it has one, stays the same. -/
def FixedTarget (c : Call) : Prop :=
  ∀ head items, c.slot 0 ≠ .setPath [.word head, .group items]

theorem defaultTarget_of_assigned (h : Assigned ev c v m m') (fixed : FixedTarget c)
    (hscope : m'.scopeAt c.frame.feed = m.scopeAt c.frame.feed) :
    ev.defaultTarget c m' = (.done (some v), m') := by
  unfold defaultTarget
  cases h with
  | word target rebinds =>
    rw [target]
    show (Outcome.done (m'.lookup (m'.scopeAt c.frame.feed) _), m') = _
    rw [hscope, rebinds.bound]
  | @element head segment key block i m₁ target keyed found index rebinds holds =>
    have hfixed : ∀ items, segment ≠ .group items := by
      rintro items rfl
      exact fixed head items target
    rw [segmentKey_of_fixed hfixed] at keyed
    cases keyed
    have hbound := rebinds.bound
    rw [← hscope] at hbound
    rw [target]
    exact Eval.run_bind_of_done (evalPath_element hbound hfixed holds)

theorem block_eq_done {index : Nat} {items : List Value} (h : c.block index m = (.done items, m')) :
    c.slot index = .block items ∧ m' = m := by
  unfold Call.block at h
  split at h
  · rename_i hslot
    cases h
    exact ⟨hslot, rfl⟩
  · cases h

/-- `default` looks at its target once.  A value that is there is the result, and nothing else
happens.  Otherwise the branch is run once, its value or null is the result, and it is assigned to the
target and nothing else; unless the key is a group, the target is found to have it afterwards. -/
theorem assignDefault_done (ev : Evaluator) (c : Call) (m m' : Machine) (bounce : Bounce)
    (placed : m.Placed c.frame.feed)
    (h : Access.run .assignDefault ev c m = (.done bounce, m')) :
    ∃ branch current m₁, c.slot 1 = .block branch ∧ Tested ev c m current m₁ ∧
      (isUnset current = false → m' = m₁ ∧ ∃ v, current = some v ∧ bounce = .out v) ∧
      (isUnset current = true → ∃ result m₂,
        ev.runBlock c branch m₁ = (.done result, m₂) ∧ bounce = .out (result.getD .null) ∧
        Assigned ev c (result.getD .null) m₂ m' ∧
        (FixedTarget c →
          ev.defaultTarget c m' = (.done (some (result.getD .null)), m'))) := by
  obtain ⟨branch, m₀, hbranch, hrun⟩ := Eval.run_bind_eq_done.1 h
  obtain ⟨hslot, rfl⟩ := block_eq_done hbranch
  obtain ⟨current, m₁, hcurrent, hrest⟩ := Eval.run_bind_eq_done.1 hrun
  refine ⟨branch, current, m₁, hslot, defaultTarget_tested hcurrent, ?_, ?_⟩
  · intro hset
    rw [hset] at hrest
    cases hrest
    refine ⟨rfl, ?_⟩
    cases current with
    | none => cases hset
    | some v => exact ⟨v, rfl, rfl⟩
  · intro hunset
    rw [hunset] at hrest
    obtain ⟨result, m₂, hresult, hassign⟩ := Eval.run_bind_eq_done.1 hrest
    have placed₁ := placed.run (ev.defaultTarget c)
    rw [hcurrent] at placed₁
    have placed₂ := placed₁.run (ev.runBlock c branch)
    rw [hresult] at placed₂
    refine ⟨result, m₂, hresult, ?_⟩
    split at hassign
    · rename_i name htarget
      have hscope := (Eval.assign (m₂.scopeAt c.frame.feed) name (result.getD .null)).run_feedScope
        placed₂.feed_lt
      cases hassign
      have rebinds := Machine.rebinds_assign placed₂.scope_lt name (result.getD .null)
      have assigned : Assigned ev c (result.getD .null) m₂ _ := .word htarget rebinds
      exact ⟨rfl, assigned, fun fixed => defaultTarget_of_assigned assigned fixed hscope⟩
    · rename_i items htarget
      have hscope := (ev.assignPath c.frame.feed items (result.getD .null)).run_feedScope
        placed₂.feed_lt
      obtain ⟨u, m₃, hpath, hdone⟩ := Eval.run_bind_eq_done.1 hassign
      rw [hpath] at hscope
      cases hdone
      obtain ⟨head, segment, key, block, i, m₃, rfl, keyed, found, index, rebinds⟩ :=
        assignPath_eq_done placed₂ hpath
      have assigned : Assigned ev c (result.getD .null) m₂ m' :=
        .element htarget keyed found index rebinds (pickItem?_set index)
      exact ⟨rfl, assigned, fun fixed => defaultTarget_of_assigned assigned fixed hscope⟩
    · cases hassign

/-- A call `b/1/: default [9]`, where `b` is `[_ 7]`. -/
def defaultCall : Call :=
  { frame := { id := 0, feed := 0 }
    state :=
      { action := default, label := "default"
        slots := [.setPath [.word "b", .integer 1], .block [.integer 9]] } }

/-- The element has no value yet, so it gets the 9. -/
theorem assignDefault_done_element : ∃ (ev : Evaluator) (m m' : Machine) (v : Value),
    Access.run .assignDefault ev defaultCall m = (.done (.out v), m') ∧ v.mold = "9" ∧
      ev.defaultTarget defaultCall m' = (.done (some v), m') := by
  let ev := Evaluator.ofConfig {}
  let m : Machine :=
    { Machine.new {} with
      scopes := { cells := #[{ bindings := [("b", .block [.blank, .integer 7])] }] }
      feeds := #[{ units := [], scope := 0 }] }
  let run := Access.run .assignDefault ev defaultCall m
  have hmold : (run.1.result?.bind fun r => r.value?.map Value.mold) = some "9" := by
    decide +kernel
  obtain ⟨bounce, hresult, hmold⟩ := Option.bind_eq_some_iff.1 hmold
  obtain ⟨branch, current, m₁, -, tested, -, assigns⟩ :=
    assignDefault_done ev defaultCall m run.2 bounce ⟨by decide, by decide⟩
      (Eval.run_of_result? hresult)
  have hunset : isUnset current = true := by
    have hread : ev.evalPath 0 [.word "b", .integer 1] false m = (.done (.value .blank), m) :=
      evalPath_element rfl (by simp) rfl
    cases tested with
    | word target => cases target
    | path target read =>
      cases target
      have hsame := hread.symm.trans read
      cases hsame
      rfl
  obtain ⟨result, m₂, -, hout, -, found⟩ := assigns hunset
  subst hout
  refine ⟨ev, m, run.2, result.getD .null, Eval.run_of_result? hresult, ?_, found ?_⟩
  · simpa [Bounce.value?] using hmold
  · intro head items htarget
    cases htarget

end Evaluator

end Homoicon
