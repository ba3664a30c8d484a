import Mathlib.Data.Nat.Find
import Homoicon.Proofs.Nearest

/-!
# Elements of blocks

An integer or a word addresses an element of the block that another word holds.  The element is read
by a path and assigned by a set-path, and each finds it by itself; that they find the same one, in
every block, makes the two a lens: what was assigned is read, to assign what is read changes nothing,
and the later of two assignments counts.
-/

namespace Homoicon

/-! ### Binding a name anew -/

namespace Bindings

theorem put_of_get? {name : String} {v : Value} {b : Bindings} (h : b.get? name = some v) :
    b.put name v = b := by
  induction b with
  | nil => cases h
  | cons e rest ih =>
    obtain ⟨n, w⟩ := e
    by_cases hn : n = name
    · simp only [get?, hn, if_true, Option.some.injEq] at h
      simp [put, hn, h]
    · simp only [get?, hn, if_false] at h
      simp [put, hn, ih h]

theorem put_put (name : String) (v w : Value) (b : Bindings) :
    (b.put name v).put name w = b.put name w := by
  induction b with
  | nil => simp [put]
  | cons e rest ih =>
    obtain ⟨n, x⟩ := e
    by_cases hn : n = name <;> simp [put, hn, ih]

end Bindings

namespace Scopes

variable {h : Scopes} {s t : ScopeId} {name : String} {v : Value}

theorem define_of_get? (ht : (h.bindings t).get? name = some v) : h.define t name v = h := by
  refine congrArg Scopes.mk (Array.ext_getElem? fun s => ?_)
  rw [Array.getElem?_modify]
  rw [bindings, scope_eq] at ht
  by_cases hs : t = s
  · subst hs
    cases hcell : h.cells[t]? with
    | none => simp
    | some c =>
      rw [hcell, Option.getD_some] at ht
      simp [Bindings.put_of_get? ht]
  · simp [hs]

theorem define_define (h : Scopes) (t : ScopeId) (name : String) (v w : Value) :
    (h.define t name v).define t name w = h.define t name w := by
  refine congrArg Scopes.mk (Array.ext_getElem? fun s => ?_)
  simp only [define, Array.getElem?_modify]
  by_cases hs : t = s
  · cases h.cells[s]? <;> simp [hs, Bindings.put_put]
  · simp [hs]

theorem binder?_define (ht : h.bindsLocally t name = true) (v : Value) (u : ScopeId)
    (other : String) : (h.define t name v).binder? u other = h.binder? u other := by
  have hbinds : ∀ x, (h.define t name v).bindsLocally x other = h.bindsLocally x other := by
    intro x
    by_cases hx : x = t ∧ other = name
    · obtain ⟨rfl, rfl⟩ := hx
      rw [ht, bindsLocally_define_self (lt_next_of_binds ht)]
    · have hne : x ≠ t ∨ other ≠ name := by
        by_cases hxt : x = t
        · exact .inr fun hother => hx ⟨hxt, hother⟩
        · exact .inl hxt
      rw [bindsLocally, bindsLocally, get?_define_of_ne hne]
  unfold binder?
  rw [chain_define]
  simp only [hbinds]

theorem lookup_define_elsewhere (ht : h.bindsLocally t name = true) (v : Value) {u : ScopeId}
    {other : String} (hne : other ≠ name ∨ h.binder? u other ≠ some t) :
    (h.define t name v).lookup u other = h.lookup u other := by
  rw [lookup_eq_binder?, lookup_eq_binder?, binder?_define ht]
  cases hbinder : h.binder? u other with
  | none => rfl
  | some x =>
    refine get?_define_of_ne (hne.symm.imp_left fun hu hx => hu ?_)
    rw [hbinder, hx]

end Scopes

/-! ### Which element a key addresses -/

/-- A unit by whose name the element behind it is selected. -/
def Labels (name : String) (unit? : Option Value) : Prop :=
  unit? = some (.word name) ∨ unit? = some (.setWord name)

/-- The key stands for position `i`, counted from zero: an integer counts from one, a word selects
what is behind the first word or set-word of its name. -/
def Selects (block : List Value) (key : Value) (i : Nat) : Prop :=
  match key with
  | .integer n => n.toInt = i + 1
  | .word name => ∃ j, i = j + 1 ∧ Labels name block[j]? ∧ ∀ l < j, ¬Labels name block[l]?
  | _ => False

/-- The key addresses an element that there is. -/
def Addresses (block : List Value) (key : Value) : Prop :=
  match key with
  | .integer n => 1 ≤ n.toInt ∧ n.toInt ≤ block.length
  | .word name => ∃ j, Labels name block[j]? ∧ j + 1 < block.length
  | _ => False

section Keys

variable {block : List Value} {key : Value} {i : Nat}

theorem position?_eq_some_iff {n : Int64} : position? n = some i ↔ n.toInt = i + 1 := by
  unfold position?
  split
  · rw [Option.some.injEq]
    omega
  · simp only [reduceCtorEq, false_iff]
    omega

theorem findIdx?_named {name : String} {p : Value → Bool}
    (hp : ∀ unit, p unit = true ↔ Labels name (some unit)) :
    (block.findIdx? p).map (· + 1) = some i ↔
      ∃ j, i = j + 1 ∧ Labels name block[j]? ∧ ∀ l < j, ¬Labels name block[l]? := by
  simp only [Option.map_eq_some_iff, List.findIdx?_eq_some_iff_getElem, hp]
  constructor
  · rintro ⟨j, ⟨hlt, hfound, hbefore⟩, rfl⟩
    refine ⟨j, rfl, ?_, fun l hl => ?_⟩
    · rwa [List.getElem?_eq_getElem hlt]
    · rw [List.getElem?_eq_getElem (Nat.lt_trans hl hlt)]
      exact hbefore l hl
  · rintro ⟨j, rfl, hfound, hbefore⟩
    have hlt : j < block.length := by
      by_contra hle
      rw [List.getElem?_eq_none (Nat.le_of_not_lt hle)] at hfound
      rcases hfound with hfound | hfound <;> cases hfound
    rw [List.getElem?_eq_getElem hlt] at hfound
    refine ⟨j, ⟨hlt, hfound, fun l hl => ?_⟩, rfl⟩
    have hl' := hbefore l hl
    rwa [List.getElem?_eq_getElem (Nat.lt_trans hl hlt)] at hl'

theorem selectIndex?_eq_some_iff {name : String} :
    selectIndex? block name = some i ↔
      ∃ j, i = j + 1 ∧ Labels name block[j]? ∧ ∀ l < j, ¬Labels name block[l]? :=
  findIdx?_named fun unit => by cases unit <;> simp [Labels]

theorem assignIndex?_eq_some_iff :
    assignIndex? block key = some i ↔ Selects block key i ∧ i < block.length := by
  unfold assignIndex? Selects
  simp only [Option.filter_eq_some_iff, decide_eq_true_eq]
  cases key with
  | integer n => rw [position?_eq_some_iff]
  | word name => rw [selectIndex?_eq_some_iff]
  | _ => simp

/-- A key addresses an element if it stands for a position within the block.  Of several words of one
name the first decides, and that one has an element behind it if any has. -/
theorem addresses_iff : Addresses block key ↔ ∃ i, Selects block key i ∧ i < block.length := by
  unfold Addresses Selects
  cases key with
  | integer n =>
    constructor
    · rintro ⟨hone, hlength⟩
      exact ⟨n.toInt.toNat - 1, by omega, by omega⟩
    · rintro ⟨i, hi, hlt⟩
      omega
  | word name =>
    constructor
    · rintro ⟨j, hnamed, hlt⟩
      classical
      have hexists : ∃ j, Labels name block[j]? := ⟨j, hnamed⟩
      have hle : Nat.find hexists ≤ j := Nat.find_le hnamed
      exact ⟨_, ⟨_, rfl, Nat.find_spec hexists, fun l hl => Nat.find_min hexists hl⟩, by omega⟩
    · rintro ⟨_, ⟨j, rfl, hnamed, -⟩, hlt⟩
      exact ⟨j, hnamed, hlt⟩
  | _ => simp

theorem assignIndex?_set (hindex : assignIndex? block key = some i) (v : Value) :
    assignIndex? (block.set i v) key = some i := by
  obtain ⟨hfound, hlt⟩ := Option.filter_eq_some_iff.1 hindex
  have hlt' : i < (block.set i v).length := by simpa using hlt
  refine Option.filter_eq_some_iff.2 ⟨?_, by simpa using hlt'⟩
  cases key with
  | integer n => exact hfound
  | word name => exact selectIndex?_set hfound v
  | _ => cases hfound

theorem exists_assignIndex?_iff : (∃ i, assignIndex? block key = some i) ↔ Addresses block key := by
  rw [addresses_iff]
  simp only [assignIndex?_eq_some_iff]

end Keys

/-! ### The lens -/

/-- After the assignment of `v` to an element of the block that the word `w` held, as seen from the
feed: the word holds a block with `v` in that place, and nothing else is different.  Evaluating the
path gives `v`, wherever the word is seen in the same scope. -/
structure ElementAssigned (ev : Evaluator) (feed : FeedId) (w : String) (key : Value)
    (block : List Value) (v : Value) (m m' : Machine) : Prop where
  element : ∃ i block', Selects block key i ∧ m'.lookup (m.scopeAt feed) w = some (.block block') ∧
    block'.length = block.length ∧ block'[i]? = some v ∧ ∀ j ≠ i, block'[j]? = block[j]?
  others : ∀ s name, name ≠ w ∨ m.scopes.binder? s name ≠ m.scopes.binder? (m.scopeAt feed) w →
    m'.lookup s name = m.lookup s name
  only : m' = { m with scopes := m'.scopes }
  reads : ∀ (frame : Frame) (n : Machine), n.scopes = m'.scopes →
    n.scopeAt frame.feed = m.scopeAt feed →
    ev.dispatch frame (.path [.word w, key]) n =
      (.done (Evaluator.produced frame (some v)), n.updateFeed frame.feed Feed.advance)

namespace Evaluator

variable {ev : Evaluator} {feed : FeedId} {m : Machine} {w : String} {key v : Value}
  {block : List Value} {i : Nat}

theorem dispatch_path (fixed : ∀ items, key ≠ .group items) {frame : Frame}
    (visible : m.lookup (m.scopeAt frame.feed) w = some (.block block))
    (hpick : pickItem? (.block block) key = some v) :
    ev.dispatch frame (.path [.word w, key]) m =
      (.done (produced frame (some v)), m.updateFeed frame.feed Feed.advance) := by
  let advanced : Machine := m.updateFeed frame.feed Feed.advance
  have hadvance : Eval.advance frame.feed m = (.done (), advanced) := rfl
  have hscope : advanced.scopeAt frame.feed = m.scopeAt frame.feed :=
    m.scope_updateFeed frame.feed frame.feed Feed.scope_advance
  have hvisible : advanced.lookup (advanced.scopeAt frame.feed) w = some (.block block) := by
    rw [hscope]
    exact visible
  unfold dispatch
  rw [Eval.run_bind_of_done hadvance, Eval.run_bind_of_done (evalPath_element hvisible fixed hpick)]
  rfl

theorem dispatch_setPath {frame : Frame} {items : List Value} {m₀ : Machine}
    (hright : ev.evalRightSide frame (.setPath items) (m₀.updateFeed frame.feed Feed.advance) =
      (.done v, m)) :
    ev.dispatch frame (.setPath items) m₀ =
      (ev.assignPath frame.feed items v >>= fun _ => pure (produced frame (some v))) m := by
  have hadvance : Eval.advance frame.feed m₀ = (.done (), m₀.updateFeed frame.feed Feed.advance) := rfl
  unfold dispatch
  rw [Eval.run_bind_of_done hadvance]
  exact Eval.run_bind_of_done hright

theorem assignPath_run (fixed : ∀ items, key ≠ .group items)
    (visible : m.lookup (m.scopeAt feed) w = some (.block block)) (v : Value) :
    ev.assignPath feed [.word w, key] v m =
      match assignIndex? block key with
      | some i => (.done (), m.assign (m.scopeAt feed) w (.block (block.set i v)))
      | none => (.failed (badPath [.word w, key]), m) := by
  have hkey : ev.segmentKey feed key m = (.done key, m) := by
    rw [segmentKey_of_fixed fixed]
    rfl
  have hresolve : Eval.resolve feed w m = (.done (.block block), m) := by
    rw [resolve_run, visible]
  unfold assignPath
  simp only
  rw [Eval.run_bind_of_done hkey, Eval.run_bind_of_done hresolve]
  dsimp only
  cases assignIndex? block key <;> rfl

theorem exists_binder (visible : m.lookup (m.scopeAt feed) w = some (.block block)) :
    ∃ t, m.scopes.binder? (m.scopeAt feed) w = some t ∧
      (m.scopes.bindings t).get? w = some (.block block) := by
  rw [Machine.lookup, Scopes.lookup_eq_binder?] at visible
  exact Option.bind_eq_some_iff.1 visible

theorem assign_of_binder {s t : ScopeId} (hbinder : m.scopes.binder? s w = some t) (x : Value) :
    m.assign s w x = { m with scopes := m.scopes.define t w x } := by
  unfold Machine.assign Scopes.assign
  rw [hbinder]
  rfl

theorem elementAssigned (fixed : ∀ items, key ≠ .group items)
    (visible : m.lookup (m.scopeAt feed) w = some (.block block))
    (hindex : assignIndex? block key = some i) :
    ElementAssigned ev feed w key block v m
      (m.assign (m.scopeAt feed) w (.block (block.set i v))) := by
  obtain ⟨t, hbinder, hget⟩ := exists_binder visible
  obtain ⟨hselects, hlt⟩ := assignIndex?_eq_some_iff.1 hindex
  have hbinds : m.scopes.bindsLocally t w = true := by
    rw [Scopes.bindsLocally, hget]
    rfl
  have hassigned := assign_of_binder hbinder (.block (block.set i v))
  have hbound : (m.assign (m.scopeAt feed) w (.block (block.set i v))).lookup (m.scopeAt feed) w =
      some (.block (block.set i v)) := by
    rw [hassigned]
    exact Scopes.lookup_define_binder hbinder
  refine ⟨⟨i, block.set i v, hselects, hbound, List.length_set, ?_, ?_⟩, ?_, ?_, ?_⟩
  · exact List.getElem?_set_self hlt
  · intro j hj
    exact List.getElem?_set_ne (Ne.symm hj)
  · intro s name hne
    rw [hbinder] at hne
    rw [hassigned]
    exact Scopes.lookup_define_elsewhere hbinds _ hne
  · rw [hassigned]
  · intro frame n hscopes hscope
    have hvisible : n.lookup (n.scopeAt frame.feed) w = some (.block (block.set i v)) := by
      rw [Machine.lookup, hscopes, hscope]
      exact hbound
    exact dispatch_path fixed hvisible (pickItem?_set hindex)

theorem assign_element_same (fixed : ∀ items, key ≠ .group items)
    (visible : m.lookup (m.scopeAt feed) w = some (.block block))
    (hindex : assignIndex? block key = some i)
    (hread : ev.evalPath feed [.word w, key] true m = (.done (.value v), m)) :
    m.assign (m.scopeAt feed) w (.block (block.set i v)) = m := by
  obtain ⟨t, hbinder, hget⟩ := exists_binder visible
  obtain ⟨-, hlt⟩ := assignIndex?_eq_some_iff.1 hindex
  -- What is read is what an assignment of the element itself would put there.
  have hsame : block.set i block[i] = block := List.set_getElem_self hlt
  have hpick : pickItem? (.block block) key = some block[i] := by
    have hset : pickItem? (.block (block.set i block[i])) key = some block[i] := pickItem?_set hindex
    rwa [hsame] at hset
  have hvalue : block[i] = v := by
    rw [evalPath_element visible fixed hpick] at hread
    cases hread
    rfl
  rw [assign_of_binder hbinder, ← hvalue, hsame, Scopes.define_of_get? hget]

theorem assignPath_again (fixed : ∀ items, key ≠ .group items)
    (visible : m.lookup (m.scopeAt feed) w = some (.block block))
    (hindex : assignIndex? block key = some i) (v v' : Value) :
    ev.assignPath feed [.word w, key] v' (m.assign (m.scopeAt feed) w (.block (block.set i v))) =
      ev.assignPath feed [.word w, key] v' m := by
  obtain ⟨t, hbinder, hget⟩ := exists_binder visible
  have hbinds : m.scopes.bindsLocally t w = true := by
    rw [Scopes.bindsLocally, hget]
    rfl
  let m' : Machine := { m with scopes := m.scopes.define t w (.block (block.set i v)) }
  have hvisible : m'.lookup (m'.scopeAt feed) w = some (.block (block.set i v)) :=
    Scopes.lookup_define_binder hbinder
  have hagain : m'.scopes.binder? (m'.scopeAt feed) w = some t :=
    (Scopes.binder?_define hbinds _ _ w).trans hbinder
  rw [assign_of_binder hbinder, assignPath_run fixed visible, hindex]
  show ev.assignPath feed [.word w, key] v' m' = _
  rw [assignPath_run fixed hvisible, assignIndex?_set hindex]
  dsimp only
  rw [assign_of_binder hagain, assign_of_binder hbinder, List.set_set]
  simp only [m', Scopes.define_define]

end Evaluator

open Evaluator in
/-- Assignment to an element of the block that a word holds, under a key that is no group, is a lens.
The code of an assignment evaluates its right side and then assigns.  That goes well exactly when the
key addresses an element, and else fails at the path and leaves everything as it was.  Afterwards the
path gives the value, every other position of the block is as before, and no name is looked up with
another result but where it is this very binding.  To assign the value that the path has changes
nothing, and a second assignment makes the same machine as if the first had not been. -/
theorem element_lens (ev : Evaluator) (frame : Frame) (m : Machine) {w : String} {key : Value}
    {block : List Value} (fixed : ∀ items, key ≠ .group items)
    (visible : m.lookup (m.scopeAt frame.feed) w = some (.block block)) (v : Value) :
    (∀ m₀, ev.evalRightSide frame (.setPath [.word w, key])
          (m₀.updateFeed frame.feed Feed.advance) = (.done v, m) →
        ev.dispatch frame (.setPath [.word w, key]) m₀ =
          (ev.assignPath frame.feed [.word w, key] v >>= fun _ =>
            pure (produced frame (some v))) m) ∧
    (Addresses block key → ∃ m', ev.assignPath frame.feed [.word w, key] v m = (.done (), m') ∧
      ElementAssigned ev frame.feed w key block v m m' ∧
      (ev.evalPath frame.feed [.word w, key] true m = (.done (.value v), m) → m' = m) ∧
      ∀ v', ev.assignPath frame.feed [.word w, key] v' m' =
        ev.assignPath frame.feed [.word w, key] v' m) ∧
    (¬Addresses block key → ev.assignPath frame.feed [.word w, key] v m =
      (.failed (.of (.badPath (Value.path [.word w, key]).mold)), m)) := by
  refine ⟨fun m₀ hright => dispatch_setPath hright, fun haddresses => ?_, fun haddresses => ?_⟩
  · obtain ⟨i, hindex⟩ := exists_assignIndex?_iff.2 haddresses
    refine ⟨m.assign (m.scopeAt frame.feed) w (.block (block.set i v)), ?_,
      elementAssigned fixed visible hindex, assign_element_same fixed visible hindex,
      assignPath_again fixed visible hindex v⟩
    rw [assignPath_run fixed visible, hindex]
  · have hnone : assignIndex? block key = none := by
      rw [← Option.not_isSome_iff_eq_none, Option.isSome_iff_exists, exists_assignIndex?_iff]
      exact haddresses
    rw [assignPath_run fixed visible, hnone]
    rfl

/-- A machine on which `b` and `c` hold one block, `[a 1 a 2]`. -/
def sharing : Machine :=
  let block : Value := .block [.word "a", .integer 1, .word "a", .integer 2]
  { Machine.new {} with
    scopes := ⟨#[{ bindings := [("b", block), ("c", block)] }]⟩
    feeds := #[{ units := [], scope := 0 }] }

open Evaluator in
/-- The first of two words of one name selects; the block that `c` holds stays the same; there is no
fifth element to assign. -/
theorem element_lens_sharing : ∃ (ev : Evaluator) (frame : Frame) (m' : Machine),
    ev.assignPath 0 [.word "b", .word "a"] (.integer 5) sharing = (.done (), m') ∧
    (ev.dispatch frame (.path [.word "b", .word "a"]) m').1 =
      .done (produced frame (some (.integer 5))) ∧
    m'.lookup 0 "c" = sharing.lookup 0 "c" ∧
    ev.assignPath 0 [.word "b", .integer 5] (.integer 5) sharing =
      (.failed (.of (.badPath "b/5")), sharing) := by
  let ev := ofConfig {}
  let frame : Frame := { id := 0, feed := 0 }
  let block : List Value := [.word "a", .integer 1, .word "a", .integer 2]
  have visible : sharing.lookup (sharing.scopeAt frame.feed) "b" = some (.block block) := rfl
  have hselects : Addresses block (.word "a") := by
    refine ⟨0, .inl rfl, ?_⟩
    decide
  have hbehind : ¬Addresses block (.integer 5) := by
    rintro ⟨-, hle⟩
    exact absurd hle (by decide)
  have named : ∀ items, Value.word "a" ≠ .group items := by simp
  have counted : ∀ items, Value.integer 5 ≠ .group items := by simp
  obtain ⟨-, hassigns, -⟩ := element_lens ev frame sharing named visible (.integer 5)
  obtain ⟨m', hdone, hassigned, -, -⟩ := hassigns hselects
  obtain ⟨-, -, hfails⟩ := element_lens ev frame sharing counted visible (.integer 5)
  have hscope : m'.scopeAt frame.feed = sharing.scopeAt frame.feed := by
    rw [hassigned.only]
    rfl
  refine ⟨ev, frame, m', hdone, ?_, hassigned.others 0 "c" (.inl (by decide)), hfails hbehind⟩
  rw [hassigned.reads frame m' rfl hscope]

end Homoicon
