import Homoicon.Evaluate.Fulfil
import Homoicon.Proofs.Parameters

/-!
# Slots on their way to being filled

Slots are filled from the left operand, from presets and from the callsite, those of unused
refinements all at once, those of used ones after all others.  The invariant says at any time which
slots are still open: `c.Filling a left k pending` holds while the main pass stands at position `k`
and the arguments of the refinements in `pending` are still to come.
-/

namespace Homoicon

/-- The values that the slot of a parameter may hold when its call runs. -/
def Param.Holds (p : Param) (v : Value) : Prop :=
  match p.role with
  | .normal | .hardQuote | .softQuote | .modal =>
    p.types.accepts v = true ∨
      v = .null ∧ (p.types.endable = true ∨ (p.role = .hardQuote ∧ p.types.skippable = true) ∨
        p.owner.isSome = true)
  | .refinement => v = .null ∨ v = .refinement p.name
  | _ => True

theorem Param.Holds.of_accepts {p : Param} {v : Value} (hr : p.role ≠ .refinement)
    (h : p.types.accepts v = true) : p.Holds v := by
  unfold Param.Holds
  split
  · exact .inl h
  · exact .inl h
  · exact .inl h
  · exact .inl h
  · exact absurd ‹_› hr
  · trivial

theorem Param.Holds.of_absent {p : Param}
    (h : p.types.endable = true ∨ (p.role = .hardQuote ∧ p.types.skippable = true) ∨
      p.owner.isSome = true) : p.Holds .null := by
  unfold Param.Holds
  split
  · exact .inr ⟨rfl, h⟩
  · exact .inr ⟨rfl, h⟩
  · exact .inr ⟨rfl, h⟩
  · exact .inr ⟨rfl, h⟩
  · exact .inl rfl
  · trivial

theorem Param.Holds.of_check {p : Param} {v : Value} {label : String} {excused : Bool}
    (hr : p.role ≠ .refinement)
    (he : excused = true → p.types.endable = true ∨ p.owner.isSome = true)
    (h : checkUnless excused label p v = .ok ()) : p.Holds v := by
  unfold checkUnless at h
  split at h
  · rename_i hnull
    obtain ⟨hnull, hexcused⟩ := Bool.and_eq_true_iff.1 hnull
    rw [Value.isNull_iff.1 hnull]
    exact .of_absent ((he hexcused).imp_right .inr)
  · unfold checkType at h
    split at h
    · exact .of_accepts hr ‹_›
    · cases h

namespace CallState

@[simp] theorem slot_fill_self {c : CallState} {i : Nat} (v : Value) (h : i < c.slots.length) :
    (c.fill i v).slot i = v := by
  simp [fill, slot, h]

theorem slot_fill_of_ne {c : CallState} {i j : Nat} (v : Value) (h : j ≠ i) :
    (c.fill i v).slot j = c.slot j := by
  simp [fill, slot, Ne.symm h]

@[simp] theorem slot_refill_self {c : CallState} {i : Nat} (v : Value) (h : i < c.slots.length) :
    (c.refill i v).slot i = v := by
  simp [refill, slot, h]

theorem slot_refill_of_ne {c : CallState} {i j : Nat} (v : Value) (h : j ≠ i) :
    (c.refill i v).slot j = c.slot j := by
  simp [refill, slot, Ne.symm h]

/-- `c'` is `c` with the slots at `positions` filled, one after another, with values that `ok`
allows. -/
structure Extends (ok : Nat → Value → Prop) (positions : List Nat) (c c' : CallState) : Prop where
  action : c'.action = c.action
  pickups : c'.pickups = c.pickups
  length : c'.slots.length = c.slots.length
  filled : c'.filled = positions.reverse ++ c.filled
  other : ∀ j, j ∉ positions → c'.slot j = c.slot j
  value : ∀ i ∈ positions, ok i (c'.slot i)

namespace Extends

variable {ok : Nat → Value → Prop} {c c' c'' : CallState}

theorem refl (c : CallState) : Extends ok [] c c :=
  ⟨rfl, rfl, rfl, rfl, fun _ _ => rfl, by simp⟩

theorem modalOn (c : CallState) (modalOn : List Nat) : Extends ok [] c { c with modalOn } :=
  ⟨rfl, rfl, rfl, rfl, fun _ _ => rfl, by simp⟩

theorem requests (c : CallState) (requests : List Request) : Extends ok [] c { c with requests } :=
  ⟨rfl, rfl, rfl, rfl, fun _ _ => rfl, by simp⟩

theorem fill {i : Nat} {v : Value} (hi : i < c.slots.length) (hv : ok i v) :
    Extends ok [i] c (c.fill i v) := by
  refine ⟨rfl, rfl, by simp [CallState.fill], rfl, ?_, ?_⟩
  · intro j hj
    exact slot_fill_of_ne v (by simpa using hj)
  · intro j hj
    obtain rfl : j = i := by simpa using hj
    rw [slot_fill_self v hi]
    exact hv

theorem trans {is js : List Nat} (h : Extends ok is c c') (h' : Extends ok js c' c'')
    (hd : ∀ i ∈ is, i ∉ js) : Extends ok (is ++ js) c c'' := by
  refine ⟨h'.action.trans h.action, h'.pickups.trans h.pickups, h'.length.trans h.length, ?_, ?_, ?_⟩
  · rw [h'.filled, h.filled, List.reverse_append, List.append_assoc]
  · intro j hj
    rw [List.mem_append, not_or] at hj
    rw [h'.other j hj.2, h.other j hj.1]
  · intro i hi
    rcases List.mem_append.1 hi with hi | hi
    · rw [h'.other i (hd i hi)]
      exact h.value i hi
    · exact h'.value i hi

theorem mem_filled {is : List Nat} (h : Extends ok is c c') {i : Nat} :
    i ∈ c'.filled ↔ i ∈ is ∨ i ∈ c.filled := by
  rw [h.filled, List.mem_append, List.mem_reverse]

end Extends

end CallState

/-- What the slot at `i` of a call of `a` may hold when the call runs. -/
def Action.Allows (a : Action) (i : Nat) (v : Value) : Prop := ∀ p, a.params[i]? = some p → p.Holds v

/-! ### Refinements and their arguments -/

namespace Action

theorem mem_refinementArguments {a : Action} {r i : Nat} :
    i ∈ a.refinementArguments r ↔ ∃ p, a.params[i]? = some p ∧ p.owner = some r := by
  unfold refinementArguments
  rw [List.mem_filterMap]
  constructor
  · rintro ⟨⟨p, j⟩, hmem, h⟩
    by_cases howner : p.owner = some r
    · simp only [howner, if_true, Option.some.injEq] at h
      subst h
      exact ⟨p, List.mem_zipIdx_iff_getElem?.1 hmem, howner⟩
    · simp [howner] at h
  · rintro ⟨p, hp, howner⟩
    exact ⟨(p, i), List.mem_zipIdx_iff_getElem?.2 hp, by simp [howner]⟩

theorem nodup_refinementArguments (a : Action) (r : Nat) : (a.refinementArguments r).Nodup := by
  have hpos : a.params.zipIdx.Pairwise fun e e' => e.2 ≠ e'.2 := by
    rw [← List.pairwise_map, List.zipIdx_map_snd]
    exact List.nodup_range'
  refine List.Pairwise.filterMap _ ?_ hpos
  rintro ⟨p, i⟩ ⟨q, j⟩ hne k hk l hl
  simp only [Option.ite_none_right_eq_some, Option.some.injEq] at hk hl
  rw [← hk.2, ← hl.2]
  exact hne

end Action

namespace CallState

/-- A refinement is in use with all of its arguments, or not at all. -/
def Settled (c : CallState) (r : Nat) : Prop :=
  c.slot r = .null ∧ (∀ i ∈ c.action.refinementArguments r, c.slot i = .null) ∨
    c.slot r ≠ .null ∧ ∀ i ∈ c.action.refinementArguments r, c.slot i ≠ .null

theorem Settled.congr {c c' : CallState} {r : Nat} (h : c.Settled r) (ha : c'.action = c.action)
    (hr : c'.slot r = c.slot r)
    (hi : ∀ i ∈ c.action.refinementArguments r, c'.slot i = c.slot i) : c'.Settled r := by
  rcases h with ⟨h, hargs⟩ | ⟨h, hargs⟩
  · exact .inl ⟨hr ▸ h, fun i hm => (hi i (ha ▸ hm)).trans (hargs i (ha ▸ hm))⟩
  · exact .inr ⟨hr ▸ h, fun i hm => hi i (ha ▸ hm) ▸ hargs i (ha ▸ hm)⟩

theorem extends_nulls {c : CallState} {indices : List Nat} (hnodup : indices.Nodup)
    (hi : ∀ i ∈ indices, i < c.slots.length) :
    c.Extends (fun _ v => v = .null) indices (indices.foldl (fun c i => c.fill i .null) c) := by
  induction indices generalizing c with
  | nil => exact .refl c
  | cons i rest ih =>
    obtain ⟨hnot, hrest⟩ := List.nodup_cons.1 hnodup
    have h : c.Extends (fun _ v => v = .null) [i] (c.fill i .null) := .fill (hi i (by simp)) rfl
    have hrest := ih hrest fun j hj => h.length.symm ▸ hi j (by simp [hj])
    exact h.trans hrest (by simpa using hnot)

end CallState

/-! ### The invariant -/

/-- What holds of a call in which exactly the slots that satisfy `isOpen` are still to be filled. -/
structure CallState.Partial (a : Action) (isOpen : Nat → Prop) (c : CallState) : Prop where
  action : c.action = a
  length : c.slots.length = a.params.length
  nodup : c.filled.Nodup
  filled : ∀ i, i ∈ c.filled ↔ i < a.params.length ∧ ¬isOpen i
  allowed : ∀ i ∈ c.filled, a.Allows i (c.slot i)

namespace CallState.Partial

variable {a : Action} {isOpen isOpen' : Nat → Prop} {c c' : CallState}

theorem start (p : PendingCall) : (CallState.start p).Partial p.action fun _ => True :=
  ⟨rfl, by simp [CallState.start], by simp [CallState.start], by simp [CallState.start],
    by simp [CallState.start]⟩

theorem congr (h : c.Partial a isOpen) (hiff : ∀ i < a.params.length, isOpen i ↔ isOpen' i) :
    c.Partial a isOpen' := by
  refine ⟨h.action, h.length, h.nodup, fun i => ?_, h.allowed⟩
  rw [h.filled]
  exact and_congr_right fun hi => not_congr (hiff i hi)

theorem isOpen_of_not_mem {i : Nat} (h : c.Partial a isOpen) (hi : i < a.params.length)
    (hf : i ∉ c.filled) : isOpen i :=
  Classical.byContradiction fun hclosed => hf ((h.filled i).2 ⟨hi, hclosed⟩)

theorem refill {i : Nat} {v : Value} (h : c.Partial a isOpen) (hi : i < c.slots.length)
    (hv : a.Allows i v) : (c.refill i v).Partial a isOpen := by
  refine ⟨h.action, by simp [CallState.refill, h.length], h.nodup, h.filled, fun j hj => ?_⟩
  by_cases hji : j = i
  · subst hji
    rw [slot_refill_self v hi]
    exact hv
  · rw [slot_refill_of_ne v hji]
    exact h.allowed j hj

theorem extend {ok : Nat → Value → Prop} {indices : List Nat} (h : c.Partial a isOpen)
    (he : c.Extends ok indices c') (hnodup : indices.Nodup)
    (hopen : ∀ i ∈ indices, i < a.params.length ∧ isOpen i)
    (hok : ∀ i ∈ indices, ∀ v, ok i v → a.Allows i v) :
    c'.Partial a fun i => isOpen i ∧ i ∉ indices := by
  have hfresh : ∀ i ∈ indices, i ∉ c.filled := fun i hi hf => ((h.filled i).1 hf).2 (hopen i hi).2
  refine ⟨he.action.trans h.action, he.length.trans h.length, ?_, ?_, ?_⟩
  · rw [he.filled, List.nodup_append]
    refine ⟨List.pairwise_reverse.2 (hnodup.imp Ne.symm), h.nodup, ?_⟩
    rintro i hi j hj rfl
    exact hfresh i (List.mem_reverse.1 hi) hj
  · intro i
    rw [he.mem_filled, h.filled]
    by_cases hi : i ∈ indices
    · simp [hi, (hopen i hi).1]
    · simp [hi]
  · intro i hi
    by_cases hmem : i ∈ indices
    · exact hok i hmem _ (he.value i hmem)
    · rw [he.other i hmem]
      exact h.allowed i ((he.mem_filled.1 hi).resolve_left hmem)

end CallState.Partial

/-- The slots that are open while the main pass stands at position `k`: those of unowned parameters
from `k` on, but for the one that took the left operand, and those whose owner is not reached yet or
waits for its arguments. -/
def IsOpen (params : List Param) (left : Option Nat) (k : Nat) (pending : List Nat) (i : Nat) : Prop :=
  match (params[i]?).bind (·.owner) with
  | none => k ≤ i ∧ left ≠ some i
  | some r => k ≤ r ∨ r ∈ pending

/-- The state of a call while the main pass stands at position `k` and the refinements in `pending`
wait for their arguments. -/
structure CallState.Filling (a : Action) (left : Option Nat) (k : Nat) (pending : List Nat)
    (c : CallState) : Prop where
  slots : c.Partial a (IsOpen a.params left k pending)
  settled : ∀ r, IsRefinementAt a.params r → r < k → r ∉ pending → c.Settled r
  pending_used : ∀ r ∈ pending, IsRefinementAt a.params r ∧ r < k ∧ c.slot r ≠ .null
  pending_nodup : pending.Nodup

section IsOpen

variable {params : List Param} {left : Option Nat} {k i : Nat} {pending : List Nat} {p : Param}

theorem isOpen_free (hp : params[i]? = some p) (h : p.owner = none) :
    IsOpen params left k pending i ↔ k ≤ i ∧ left ≠ some i := by
  simp [IsOpen, hp, h]

theorem isOpen_owned {r : Nat} (hp : params[i]? = some p) (h : p.owner = some r) :
    IsOpen params left k pending i ↔ k ≤ r ∨ r ∈ pending := by
  simp [IsOpen, hp, h]

theorem isRefinementAt_iff (hp : params[k]? = some p) :
    IsRefinementAt params k ↔ p.role = .refinement := by
  simp [IsRefinementAt, hp]

theorem isOpen_succ (hw : WellOwned params) (hp : params[k]? = some p) (hr : p.role ≠ .refinement)
    (hi : i < params.length) :
    IsOpen params left (k + 1) pending i ↔
      IsOpen params left k pending i ∧ (i = k → p.owner.isSome = true) := by
  obtain ⟨q, hq⟩ : ∃ q, params[i]? = some q := ⟨_, List.getElem?_eq_getElem hi⟩
  cases ho : q.owner with
  | none =>
    rw [isOpen_free hq ho, isOpen_free hq ho]
    by_cases hik : i = k
    · subst hik
      rw [hp] at hq
      cases hq
      have hpast : ¬i + 1 ≤ i := by omega
      simp [ho, hpast]
    · have hiff : k + 1 ≤ i ↔ k ≤ i := by omega
      simp [hiff, hik]
  | some r =>
    rw [isOpen_owned hq ho, isOpen_owned hq ho]
    have hne : r ≠ k := by
      rintro rfl
      exact hr ((isRefinementAt_iff hp).1 (hw.owner_before i q r hq ho).2)
    have hiff : k + 1 ≤ r ↔ k ≤ r := by omega
    rw [hiff, iff_self_and]
    rintro - rfl
    rw [hp] at hq
    cases hq
    simp [ho]

/-- After a refinement, its slot is closed, and those of its arguments are unless it waits. -/
theorem isOpen_succ_refinement {pending' : List Nat} (hw : WellOwned params)
    (hp : params[k]? = some p) (hr : p.role = .refinement) (hi : i < params.length)
    (hpending : ∀ r, r ≠ k → (r ∈ pending' ↔ r ∈ pending)) (hk : k ∉ pending) :
    IsOpen params left (k + 1) pending' i ↔
      IsOpen params left k pending i ∧ i ≠ k ∧
        ((params[i]?).bind (·.owner) = some k → k ∈ pending') := by
  obtain ⟨q, hq⟩ : ∃ q, params[i]? = some q := ⟨_, List.getElem?_eq_getElem hi⟩
  cases ho : q.owner with
  | none =>
    rw [isOpen_free hq ho, isOpen_free hq ho]
    have hiff : k + 1 ≤ i ↔ k ≤ i ∧ i ≠ k := by omega
    rw [hiff]
    simp [hq, ho, and_assoc, and_comm]
  | some r =>
    rw [isOpen_owned hq ho, isOpen_owned hq ho]
    have hne : i ≠ k := by
      rintro rfl
      rw [hp] at hq
      cases hq
      simp [hw.refinement_free i p hp hr] at ho
    simp only [hq, Option.bind_some, ho, Option.some.injEq, ne_eq, hne, not_false_eq_true, true_and]
    by_cases hrk : r = k
    · subst hrk
      have hpast : ¬r + 1 ≤ r := by omega
      simp [hpast]
    · have hiff : k + 1 ≤ r ↔ k ≤ r := by omega
      simp [hiff, hrk, hpending r hrk]

end IsOpen

namespace CallState.Filling

variable {a : Action} {left : Option Nat} {k : Nat} {pending : List Nat} {c c' : CallState}
  {p : Param}

/-- From one point of the passes to a later one: slots that were closed stay as they are, but for
refinements that no longer wait, and refinements that were not settled before are settled now or
wait. -/
theorem advance {left' : Option Nat} {k' : Nat} {pending' : List Nat}
    (h : c.Filling a left k pending) (hw : WellOwned a.params)
    (hslots : c'.Partial a (IsOpen a.params left' k' pending'))
    (hkeep : ∀ j < a.params.length, ¬IsOpen a.params left k pending j → (j ∈ pending → j ∈ pending') →
      c'.slot j = c.slot j)
    (hsettled : ∀ r, IsRefinementAt a.params r → r < k' → r ∉ pending' → k ≤ r ∨ r ∈ pending →
      c'.Settled r)
    (hpending : ∀ r ∈ pending', r ∈ pending ∧ k ≤ k' ∨
      IsRefinementAt a.params r ∧ r < k' ∧ c'.slot r ≠ .null)
    (hnodup : pending'.Nodup) : c'.Filling a left' k' pending' := by
  have hclosed : ∀ r, IsRefinementAt a.params r → r < k → ¬IsOpen a.params left k pending r := by
    rintro r ⟨q, hq, hrole⟩ hlt
    rw [isOpen_free hq (hw.refinement_free r q hq hrole)]
    omega
  refine ⟨hslots, fun r href hlt hwait => ?_, fun r hm => ?_, hnodup⟩
  · by_cases hnew : k ≤ r ∨ r ∈ pending
    · exact hsettled r href hlt hwait hnew
    · rw [not_or, Nat.not_le] at hnew
      refine (h.settled r href hnew.1 hnew.2).congr (hslots.action.trans h.slots.action.symm) ?_ ?_
      · exact hkeep r href.lt (hclosed r href hnew.1) fun hm => absurd hm hnew.2
      · intro i hi
        rw [h.slots.action, Action.mem_refinementArguments] at hi
        obtain ⟨q, hq, howner⟩ := hi
        refine hkeep i (List.getElem?_eq_some_iff.1 hq).1 ?_ fun hm => ?_
        · rw [isOpen_owned hq howner, not_or, Nat.not_le]
          exact hnew
        · obtain ⟨⟨q', hq', hrole⟩, -⟩ := h.pending_used i hm
          rw [hq] at hq'
          cases hq'
          rw [hw.refinement_free i q hq hrole] at howner
          cases howner
  · rcases hpending r hm with ⟨hold, hle⟩ | hnew
    · obtain ⟨href, hlt, hused⟩ := h.pending_used r hold
      refine ⟨href, by omega, ?_⟩
      rw [hkeep r href.lt (hclosed r href hlt) fun _ => hm]
      exact hused
    · exact hnew

theorem step {ok : Nat → Value → Prop} {indices : List Nat} {left' : Option Nat} {k' : Nat}
    {pending' : List Nat} (h : c.Filling a left k pending) (hw : WellOwned a.params)
    (he : c.Extends ok indices c') (hdup : indices.Nodup)
    (hopen : ∀ i ∈ indices, i < a.params.length ∧ IsOpen a.params left k pending i)
    (hok : ∀ i ∈ indices, ∀ v, ok i v → a.Allows i v)
    (hiff : ∀ i < a.params.length, IsOpen a.params left k pending i ∧ i ∉ indices ↔
      IsOpen a.params left' k' pending' i)
    (hsettled : ∀ r, IsRefinementAt a.params r → r < k' → r ∉ pending' → k ≤ r ∨ r ∈ pending →
      c'.Settled r)
    (hpending : ∀ r ∈ pending', r ∈ pending ∧ k ≤ k' ∨
      IsRefinementAt a.params r ∧ r < k' ∧ c'.slot r ≠ .null)
    (hnodup : pending'.Nodup) : c'.Filling a left' k' pending' := by
  refine h.advance hw ((h.slots.extend he hdup hopen hok).congr hiff) ?_ hsettled hpending hnodup
  intro j _ hclosed _
  exact he.other j fun hj => hclosed (hopen j hj).2

theorem withPickups (h : c.Filling a left k pending) (pickups : List Nat) :
    { c with pickups }.Filling a left k pending :=
  ⟨⟨h.slots.action, h.slots.length, h.slots.nodup, h.slots.filled, h.slots.allowed⟩, h.settled,
    h.pending_used, h.pending_nodup⟩

theorem start (p : PendingCall) : (CallState.start p).Filling p.action none 0 [] := by
  refine ⟨(CallState.Partial.start p).congr fun i hi => ?_, by simp, by simp, by simp⟩
  obtain ⟨q, hq⟩ : ∃ q, p.action.params[i]? = some q := ⟨_, List.getElem?_eq_getElem hi⟩
  cases ho : q.owner with
  | none => simp [isOpen_free hq ho]
  | some r => simp [isOpen_owned hq ho]

theorem takeLeft {i : Nat} (h : c.Filling a none 0 []) (hw : WellOwned a.params)
    (hp : a.params[i]? = some p) (hfree : p.owner = none) (he : c.Extends a.Allows [i] c') :
    c'.Filling a (some i) 0 [] := by
  have hi := (List.getElem?_eq_some_iff.1 hp).1
  refine h.step hw he (by simp) ?_ (fun _ _ _ hv => hv) ?_ (by simp) (by simp) (by simp)
  · intro j hj
    obtain rfl : j = i := by simpa using hj
    exact ⟨hi, by simp [isOpen_free hp hfree]⟩
  · intro j hj
    obtain ⟨q, hq⟩ : ∃ q, a.params[j]? = some q := ⟨_, List.getElem?_eq_getElem hj⟩
    cases ho : q.owner with
    | none => simp [isOpen_free hq ho, eq_comm]
    | some r =>
      have hne : j ≠ i := by
        rintro rfl
        rw [hp] at hq
        cases hq
        simp [hfree] at ho
      simp [isOpen_owned hq ho, hne]

theorem skip (h : c.Filling a left k pending) (hw : WellOwned a.params)
    (hp : a.params[k]? = some p) (hr : p.role ≠ .refinement)
    (hskip : k ∈ c.filled ∨ p.owner.isSome = true) : c.Filling a left (k + 1) pending := by
  refine h.advance hw (h.slots.congr fun i hi => ?_) (fun _ _ _ _ => rfl) ?_
    (fun r hm => .inl ⟨hm, by omega⟩) h.pending_nodup
  · rw [isOpen_succ hw hp hr hi, iff_self_and]
    rintro hopen rfl
    exact hskip.resolve_left fun hf => ((h.slots.filled i).1 hf).2 hopen
  · intro r href hlt hnot hnew
    obtain rfl : r = k := by grind
    exact absurd ((isRefinementAt_iff hp).1 href) hr

theorem takeFree (h : c.Filling a left k pending) (hw : WellOwned a.params)
    (hp : a.params[k]? = some p) (hr : p.role ≠ .refinement) (hfree : p.owner = none)
    (hk : k ∉ c.filled) (he : c.Extends a.Allows [k] c') : c'.Filling a left (k + 1) pending := by
  have hlt := (List.getElem?_eq_some_iff.1 hp).1
  have hopen := h.slots.isOpen_of_not_mem hlt hk
  refine h.step hw he (by simp) ?_ (fun _ _ _ hv => hv) ?_ ?_
    (fun r hm => .inl ⟨hm, by omega⟩) h.pending_nodup
  · intro i hi
    obtain rfl : i = k := by simpa using hi
    exact ⟨hlt, hopen⟩
  · intro i hi
    simp [isOpen_succ hw hp hr hi, hfree]
  · intro r href hlt hnot hnew
    obtain rfl : r = k := by grind
    exact absurd ((isRefinementAt_iff hp).1 href) hr

section Refinement

variable (h : c.Filling a left k pending) (hw : WellOwned a.params) (hp : a.params[k]? = some p)
  (hk : k ∉ c.filled) (hr : p.role = .refinement)
include h hw hp hk

theorem nodup_arguments : (k :: a.refinementArguments k).Nodup ∧
    ∀ i ∈ k :: a.refinementArguments k,
      i < a.params.length ∧ IsOpen a.params left k pending i := by
  have hlt := (List.getElem?_eq_some_iff.1 hp).1
  refine ⟨List.nodup_cons.2 ⟨fun hm => ?_, a.nodup_refinementArguments k⟩, fun i hi => ?_⟩
  · obtain ⟨q, hq, howner⟩ := Action.mem_refinementArguments.1 hm
    exact absurd (hw.owner_before k q k hq howner).1 (by omega)
  · rcases List.mem_cons.1 hi with rfl | hi
    · exact ⟨hlt, h.slots.isOpen_of_not_mem hlt hk⟩
    · obtain ⟨q, hq, howner⟩ := Action.mem_refinementArguments.1 hi
      exact ⟨(List.getElem?_eq_some_iff.1 hq).1, (isOpen_owned hq howner).2 (.inl (by omega))⟩

include hr

theorem takeUnused
    (he : c.Extends (fun _ v => v = .null) (k :: a.refinementArguments k) c') :
    c'.Filling a left (k + 1) pending := by
  obtain ⟨hdup, hopen⟩ := nodup_arguments h hw hp hk
  have hwait : k ∉ pending := fun hm => absurd (h.pending_used k hm).2.1 (by omega)
  refine h.step hw he hdup hopen ?_ (fun i hi => ?_) ?_ (fun r hm => .inl ⟨hm, by omega⟩)
    h.pending_nodup
  · rintro i hi _ rfl q hq
    rcases List.mem_cons.1 hi with rfl | hi
    · rw [hp] at hq
      cases hq
      simp [Param.Holds, hr]
    · obtain ⟨q', hq', howner⟩ := Action.mem_refinementArguments.1 hi
      rw [hq] at hq'
      cases hq'
      exact .of_absent (.inr (.inr (by simp [howner])))
  · rw [isOpen_succ_refinement hw hp hr hi (fun _ _ => .rfl) hwait]
    simp [hwait, Action.mem_refinementArguments, Option.bind_eq_some_iff]
  · intro r href hlt hnot hnew
    obtain rfl : r = k := by grind
    refine .inl ⟨he.value r (by simp), fun i hi => he.value i ?_⟩
    rw [he.action, h.slots.action] at hi
    exact List.mem_cons_of_mem _ hi

theorem takeUsed {pending' : List Nat} (he : c.Extends (fun _ v => v = .refinement p.name) [k] c')
    (hpending : a.refinementArguments k = [] ∧ pending' = pending ∨ pending' = pending ++ [k]) :
    c'.Filling a left (k + 1) pending' := by
  obtain ⟨-, hopen⟩ := nodup_arguments h hw hp hk
  have hlt := (List.getElem?_eq_some_iff.1 hp).1
  have hwait : k ∉ pending := fun hm => absurd (h.pending_used k hm).2.1 (by omega)
  have hused : c'.slot k ≠ .null := by simp [he.value k (by simp)]
  have howned : ∀ i, (a.params[i]?).bind (·.owner) = some k ↔ i ∈ a.refinementArguments k := by
    simp [Action.mem_refinementArguments, Option.bind_eq_some_iff]
  have hothers : ∀ r, r ≠ k → (r ∈ pending' ↔ r ∈ pending) := by grind
  refine h.step hw he (by simp) ?_ ?_ (fun i hi => ?_) ?_ ?_ ?_
  · simpa using hopen k (by simp)
  · rintro i hi _ rfl q hq
    obtain rfl : i = k := by simpa using hi
    rw [hp] at hq
    cases hq
    simp [Param.Holds, hr]
  · rw [isOpen_succ_refinement hw hp hr hi hothers hwait, howned]
    rcases hpending with ⟨hargs, -⟩ | rfl
    · simp [hargs]
    · simp
  · intro r href _ hnot hnew
    obtain rfl : r = k := by grind
    obtain ⟨hargs, -⟩ := hpending.resolve_right fun e => hnot (by simp [e])
    exact .inr ⟨hused, by simp [he.action, h.slots.action, hargs]⟩
  · intro r hm
    by_cases hrk : r = k
    · subst hrk
      exact .inr ⟨(isRefinementAt_iff hp).2 hr, by omega, hused⟩
    · exact .inl ⟨(hothers r hrk).1 hm, by omega⟩
  · rcases hpending with ⟨-, rfl⟩ | rfl
    · exact h.pending_nodup
    · rw [List.nodup_append]
      exact ⟨h.pending_nodup, by simp, by grind⟩

end Refinement

theorem isOpen_pending {r i : Nat} (h : c.Filling a left k (r :: pending))
    (hi : i ∈ a.refinementArguments r) :
    i < a.params.length ∧ IsOpen a.params left k (r :: pending) i ∧ i ∉ c.filled := by
  obtain ⟨q, hq, howner⟩ := Action.mem_refinementArguments.1 hi
  have hopen : IsOpen a.params left k (r :: pending) i := (isOpen_owned hq howner).2 (.inr (by simp))
  exact ⟨(List.getElem?_eq_some_iff.1 hq).1, hopen, fun hf => ((h.slots.filled i).1 hf).2 hopen⟩

/-- The arguments of a refinement are picked up, and the refinement is revoked if they are null. -/
theorem pickUp {r : Nat} {c₁ : CallState} (h : c.Filling a left a.params.length (r :: pending))
    (hw : WellOwned a.params) (he : c.Extends a.Allows (a.refinementArguments r) c₁)
    (hrevoke : (∀ i ∈ a.refinementArguments r, c₁.slot i ≠ .null) ∧ c' = c₁ ∨
      (∀ i ∈ a.refinementArguments r, c₁.slot i = .null) ∧ c' = c₁.refill r .null) :
    c'.Filling a left a.params.length pending := by
  obtain ⟨hnot, hnodup⟩ := List.nodup_cons.1 h.pending_nodup
  obtain ⟨⟨p, hp, hr⟩, hlt, hused⟩ := h.pending_used r (by simp)
  -- an owner stands before what it owns
  have hself : r ∉ a.refinementArguments r := by
    intro hm
    obtain ⟨q, hq, howner⟩ := Action.mem_refinementArguments.1 hm
    exact absurd (hw.owner_before r q r hq howner).1 (by omega)
  have hslots : c₁.Partial a (IsOpen a.params left a.params.length pending) := by
    refine (h.slots.extend he (a.nodup_refinementArguments r) (fun i hi => ?_)
      (fun _ _ _ hv => hv)).congr fun i hi => ?_
    · obtain ⟨hi, hopen, -⟩ := h.isOpen_pending hi
      exact ⟨hi, hopen⟩
    · obtain ⟨q, hq⟩ : ∃ q, a.params[i]? = some q := ⟨_, List.getElem?_eq_getElem hi⟩
      cases ho : q.owner with
      | none =>
        rw [isOpen_free hq ho, isOpen_free hq ho]
        have hpast : ¬a.params.length ≤ i := by omega
        simp [hpast]
      | some s =>
        rw [isOpen_owned hq ho, isOpen_owned hq ho, Action.mem_refinementArguments]
        have hs := (hw.owner_before i q s hq ho).2.lt
        have hpast : ¬a.params.length ≤ s := by omega
        simp only [hq, Option.some.injEq, hpast, false_or, List.mem_cons]
        grind
  have hr' : r < c₁.slots.length := by rw [hslots.length]; exact hlt
  have hother : ∀ j, j ≠ r → c'.slot j = c₁.slot j := by
    intro j hj
    rcases hrevoke with ⟨-, rfl⟩ | ⟨-, rfl⟩
    · rfl
    · exact slot_refill_of_ne _ hj
  have hslots' : c'.Partial a (IsOpen a.params left a.params.length pending) := by
    rcases hrevoke with ⟨-, rfl⟩ | ⟨-, rfl⟩
    · exact hslots
    · exact hslots.refill hr' fun q hq => by
        rw [hp] at hq
        cases hq
        simp [Param.Holds, hr]
  -- the refinement is the only one that is settled by this, either way of `hrevoke`
  refine h.advance hw hslots' ?_ ?_ (fun s hm => .inl ⟨by simp [hm], Nat.le_refl _⟩) hnodup
  · intro j hj hclosed hwait
    have hne : j ≠ r := by
      rintro rfl
      exact hnot (hwait (by simp))
    rw [hother j hne]
    exact he.other j fun hm => hclosed (h.isOpen_pending hm).2.1
  · intro s href hs hwait hnew
    obtain rfl : s = r := by grind
    rw [CallState.Settled, hslots'.action]
    rcases hrevoke with ⟨hargs, rfl⟩ | ⟨hargs, rfl⟩
    · exact .inr ⟨by rw [he.other s hself]; exact hused, hargs⟩
    · refine .inl ⟨slot_refill_self _ hr', fun i hi => ?_⟩
      rw [hother i (fun e => hself (e ▸ hi))]
      exact hargs i hi

end CallState.Filling

/-! ### Fulfilled calls -/

/-- What holds of a call when its slots have been filled. -/
structure CallState.Fulfilled (c : CallState) : Prop where
  length : c.slots.length = c.action.params.length
  /-- Every slot was filled, and none twice. -/
  filled_once : c.filled.Perm (List.range c.action.params.length)
  holds : ∀ (i : Nat) (p : Param), c.action.params[i]? = some p → p.Holds (c.slot i)
  /-- A refinement with arguments is null together with all of them or with none. -/
  refinements : ∀ r, IsRefinementAt c.action.params r → c.action.refinementArguments r ≠ [] →
    (c.slot r = .null ↔ ∀ i ∈ c.action.refinementArguments r, c.slot i = .null) ∧
      (c.slot r ≠ .null → ∀ i ∈ c.action.refinementArguments r, c.slot i ≠ .null)

theorem CallState.Filling.fulfilled {a : Action} {left : Option Nat} {c : CallState}
    (h : c.Filling a left a.params.length []) (hw : WellOwned a.params) : c.Fulfilled := by
  obtain rfl := h.slots.action
  have hfilled : ∀ i, i ∈ c.filled ↔ i < c.action.params.length := by
    intro i
    rw [h.slots.filled, and_iff_left_iff_imp]
    intro hi
    obtain ⟨q, hq⟩ : ∃ q, c.action.params[i]? = some q := ⟨_, List.getElem?_eq_getElem hi⟩
    cases ho : q.owner with
    | none =>
      rw [isOpen_free hq ho]
      omega
    | some r =>
      have hr := (hw.owner_before i q r hq ho).2.lt
      rw [isOpen_owned hq ho]
      simpa using hr
  refine ⟨h.slots.length, ?_, ?_, ?_⟩
  · rw [List.perm_ext_iff_of_nodup h.slots.nodup List.nodup_range]
    simp [hfilled]
  · intro i p hp
    exact h.slots.allowed i ((hfilled i).2 (List.getElem?_eq_some_iff.1 hp).1) p hp
  · intro r href hargs
    rcases h.settled r href href.lt (by simp) with ⟨hnull, hnulls⟩ | ⟨hused, hnone⟩
    · exact ⟨iff_of_true hnull hnulls, fun hused => absurd hnull hused⟩
    · obtain ⟨i, hi⟩ := List.exists_mem_of_ne_nil _ hargs
      exact ⟨iff_of_false hused fun hnulls => hnone i hi (hnulls i hi), fun _ => hnone⟩

end Homoicon
