import Homoicon.Proofs.Fulfilment

/-!
# What the passes keep

The passes over the parameters change a call in three ways: they fill an open slot, they note a
refinement, and they revoke one.  What each of these keeps holds when the slots are filled, if it
holds at the start.  So it is with a slot that is filled and belongs to no refinement: nothing changes
it any more.
-/

namespace Homoicon

/-- A call of `a`, with a slot for each of its parameters. -/
structure CallState.Of (c : CallState) (a : Action) : Prop where
  action : c.action = a
  length : c.slots.length = a.params.length

theorem Eval.Returns.and {α : Type} {x : Eval α} {P Q : α → Prop} (h : x.Returns P)
    (h' : x.Returns Q) : x.Returns fun a => P a ∧ Q a :=
  fun m a m' ha => ⟨h m a m' ha, h' m a m' ha⟩

theorem CallState.Extends.of {ok : Nat → Value → Prop} {indices : List Nat} {c c' : CallState}
    {a : Action} (h : c.Extends ok indices c') (hc : c.Of a) : c'.Of a :=
  ⟨h.action.trans hc.action, h.length.trans hc.length⟩

theorem CallState.start_of (p : PendingCall) : (CallState.start p).Of p.action :=
  ⟨rfl, by simp [CallState.start]⟩

theorem CallState.slot_start (p : PendingCall) (i : Nat) : (CallState.start p).slot i = .void := by
  show ((p.action.params.map fun _ => Value.void)[i]?).getD .void = .void
  rw [List.getElem?_map]
  cases p.action.params[i]? <;> rfl

namespace Evaluator

variable {ev : Evaluator} {frame : Frame} {a : Action} {c c' : CallState} {p : Param} {i k r : Nat}

/-! ### The three changes -/

theorem mem_entries {e : Param × Nat} : e ∈ a.params.zipIdx ↔ a.params[e.2]? = some e.1 :=
  List.mem_zipIdx_iff_getElem?

theorem drop_entries (hp : a.params[i]? = some p) :
    a.params.zipIdx.drop i = (p, i) :: a.params.zipIdx.drop (i + 1) := by
  obtain ⟨hlt, hget⟩ := List.getElem?_eq_some_iff.1 hp
  have hlt' : i < a.params.zipIdx.length := by rwa [List.length_zipIdx]
  rw [List.drop_eq_getElem_cons hlt', List.getElem_zipIdx, hget, Nat.zero_add]

theorem mainPass_append (ev : Evaluator) (frame : Frame) (xs ys : List (Param × Nat))
    (c : CallState) :
    ev.mainPass frame (xs ++ ys) c = ev.mainPass frame xs c >>= ev.mainPass frame ys := by
  induction xs generalizing c with
  | nil => rfl
  | cons entry rest ih =>
    obtain ⟨p, i⟩ := entry
    simp only [List.cons_append, mainPass]
    split
    · exact ih c
    · split
      · rw [Eval.bind_assoc]
        simp only [ih]
      · rw [Eval.bind_assoc]
        simp only [ih]

theorem role_of_owned (hw : WellOwned a.params) (hi : i ∈ a.refinementArguments r) :
    ∃ q, a.params[i]? = some q ∧ q.owner = some r ∧ q.role ≠ .refinement := by
  obtain ⟨q, hq, howner⟩ := Action.mem_refinementArguments.1 hi
  refine ⟨q, hq, howner, fun hrole => ?_⟩
  rw [hw.refinement_free i q hq hrole] at howner
  cases howner

theorem isRefinementAt_of_arguments (hw : WellOwned a.params) (hr : a.refinementArguments r ≠ []) :
    IsRefinementAt a.params r := by
  obtain ⟨i, hi⟩ := List.exists_mem_of_ne_nil _ hr
  obtain ⟨q, hq, howner⟩ := Action.mem_refinementArguments.1 hi
  exact (hw.owner_before i q r hq howner).2

theorem arguments_eq_nil (hw : WellOwned a.params) (hp : a.params[i]? = some p)
    (hr : p.role ≠ .refinement) : a.refinementArguments i = [] := by
  apply List.eq_nil_iff_forall_not_mem.2
  intro j hj
  obtain ⟨q, hq, hrole⟩ := isRefinementAt_of_arguments hw (List.ne_nil_of_mem hj)
  rw [hp] at hq
  cases hq
  exact hr hrole

theorem not_mem_arguments_self (hw : WellOwned a.params) : r ∉ a.refinementArguments r := by
  intro hr
  obtain ⟨q, hq, howner⟩ := Action.mem_refinementArguments.1 hr
  exact absurd (hw.owner_before r q r hq howner).1 (Nat.lt_irrefl r)

theorem fillParam_extends (hc : c.Of a) (hp : a.params[i]? = some p) (hr : p.role ≠ .refinement) :
    (ev.fillParam frame c p i).Returns (c.Extends a.Allows [i] ·) := by
  have hlt : i < c.slots.length := by
    rw [hc.length]
    exact (List.getElem?_eq_some_iff.1 hp).1
  have hp' : c.action.params[i]? = some p := by rw [hc.action, hp]
  rw [← hc.action]
  exact fillParam_returns hp' hr hlt

/-- A noted refinement is in use, and then only its own slot is filled, or it is not, and then its
arguments are null like itself. -/
theorem noteRefinement_extends (hw : WellOwned a.params) (hc : c.Of a)
    (hp : a.params[k]? = some p) (h : noteRefinement c p k = .ok c') :
    (∃ pickups, { c with pickups }.Extends (fun _ v => v = Value.refinement p.name) [k] c') ∨
      c.Extends (fun _ v => v = Value.null) (k :: a.refinementArguments k) c' := by
  obtain rfl := hc.action
  have hlt : k < c.slots.length := by
    rw [hc.length]
    exact (List.getElem?_eq_some_iff.1 hp).1
  have hnodup : (k :: c.action.refinementArguments k).Nodup :=
    List.nodup_cons.2 ⟨not_mem_arguments_self hw, c.action.nodup_refinementArguments k⟩
  have hbound : ∀ i ∈ c.action.refinementArguments k, i < c.slots.length := by
    intro i hi
    obtain ⟨q, hq, -⟩ := Action.mem_refinementArguments.1 hi
    rw [hc.length]
    exact (List.getElem?_eq_some_iff.1 hq).1
  rcases noteRefinement_eq_ok h hlt hnodup hbound with ⟨hused, -⟩ | hunused
  · exact .inl ⟨_, hused⟩
  · exact .inr hunused

theorem noteRefinement_of (hw : WellOwned a.params) (hc : c.Of a) (hp : a.params[k]? = some p)
    (h : noteRefinement c p k = .ok c') : c'.Of a := by
  rcases noteRefinement_extends hw hc hp h with ⟨pickups, hused⟩ | hunused
  · exact hused.of ⟨hc.action, hc.length⟩
  · exact hunused.of hc

/-! ### From one change to all -/

/-- Each change of the main pass, at one of the given parameters, keeps `I`. -/
structure MainKeeps (ev : Evaluator) (frame : Frame) (a : Action) (entries : List (Param × Nat))
    (I : CallState → Prop) : Prop where
  fill : ∀ c p i, (p, i) ∈ entries → c.Of a → I c → a.params[i]? = some p → p.role ≠ .refinement →
    i ∉ c.filled → (ev.fillParam frame c p i).Returns I
  note : ∀ c c' p k, (p, k) ∈ entries → c.Of a → I c → a.params[k]? = some p →
    p.role = .refinement → k ∉ c.filled → noteRefinement c p k = .ok c' → I c'

/-- Each change of the pickup pass keeps `I`. -/
structure PickupKeeps (ev : Evaluator) (frame : Frame) (a : Action) (I : CallState → Prop) :
    Prop where
  fill : ∀ c p i, c.Of a → I c → a.params[i]? = some p → p.role ≠ .refinement → i ∉ c.filled →
    (ev.fillParam frame c p i).Returns I
  revoke : ∀ c r, c.Of a → I c → a.refinementArguments r ≠ [] → I (c.refill r .null)

variable {I J : CallState → Prop}

theorem MainKeeps.mainPass {entries : List (Param × Nat)} (h : ev.MainKeeps frame a entries I)
    (hw : WellOwned a.params) (hentries : ∀ e ∈ entries, a.params[e.2]? = some e.1) (hc : c.Of a)
    (hI : I c) : (ev.mainPass frame entries c).Returns fun c' => c'.Of a ∧ I c' := by
  induction entries generalizing c with
  | nil => exact .pure ⟨hc, hI⟩
  | cons entry rest ih =>
    obtain ⟨p, i⟩ := entry
    have hp : a.params[i]? = some p := hentries (p, i) List.mem_cons_self
    have hrest : ∀ e ∈ rest, a.params[e.2]? = some e.1 :=
      fun e he => hentries e (List.mem_cons_of_mem _ he)
    have keeps : ev.MainKeeps frame a rest I :=
      ⟨fun c p i he => h.fill c p i (List.mem_cons_of_mem _ he),
        fun c c' p k he => h.note c c' p k (List.mem_cons_of_mem _ he)⟩
    unfold Evaluator.mainPass
    split
    · exact ih keeps hrest hc hI
    · rename_i hopen
      have hunfilled : i ∉ c.filled := by
        intro hmem
        apply hopen
        simp [CallState.isFilled, hmem]
      split
      · rename_i hrole
        refine .bind (.ofExcept fun c' hc' => hc') fun c' hnoted => ?_
        exact ih keeps hrest (noteRefinement_of hw hc hp hnoted)
          (h.note c c' p i List.mem_cons_self hc hI hp (eq_of_beq hrole) hunfilled hnoted)
      · rename_i hrole
        have hrole' : p.role ≠ .refinement := fun he => hrole (by simp [he])
        have hextends : (ev.fillParam frame c p i).Returns (c.Extends a.Allows [i] ·) :=
          fillParam_extends hc hp hrole'
        have hfilled := h.fill c p i List.mem_cons_self hc hI hp hrole' hunfilled
        exact .bind (hextends.and hfilled) fun c' h' => ih keeps hrest (h'.1.of hc) h'.2

theorem PickupKeeps.fillAll {indices : List Nat} (h : ev.PickupKeeps frame a I)
    (hindices : ∀ i ∈ indices, ∀ q, a.params[i]? = some q → q.role ≠ .refinement) (hc : c.Of a)
    (hI : I c) : (ev.fillAll frame indices c).Returns fun c' => c'.Of a ∧ I c' := by
  induction indices generalizing c with
  | nil => exact .pure ⟨hc, hI⟩
  | cons i rest ih =>
    have hrest : ∀ j ∈ rest, ∀ q, a.params[j]? = some q → q.role ≠ .refinement :=
      fun j hj => hindices j (List.mem_cons_of_mem _ hj)
    unfold Evaluator.fillAll
    split
    · exact ih hrest hc hI
    · rename_i hopen
      have hunfilled : i ∉ c.filled := by simpa [CallState.isFilled] using hopen
      split
      · exact ih hrest hc hI
      · rename_i p hp
        rw [hc.action] at hp
        have hrole := hindices i List.mem_cons_self p hp
        have hextends : (ev.fillParam frame c p i).Returns (c.Extends a.Allows [i] ·) :=
          fillParam_extends hc hp hrole
        have hfilled := h.fill c p i hc hI hp hrole hunfilled
        exact .bind (hextends.and hfilled) fun c' h' => ih hrest (h'.1.of hc) h'.2

theorem PickupKeeps.pickupPass {pending : List Nat} (h : ev.PickupKeeps frame a I)
    (hw : WellOwned a.params) (hc : c.Of a) (hI : I c) :
    (ev.pickupPass frame pending c).Returns I := by
  induction pending generalizing c with
  | nil => exact .pure hI
  | cons r rest ih =>
    unfold Evaluator.pickupPass
    rw [hc.action]
    have hroles : ∀ i ∈ a.refinementArguments r, ∀ q, a.params[i]? = some q →
        q.role ≠ .refinement := by
      intro i hi q hq
      obtain ⟨q', hq', -, hrole⟩ := role_of_owned hw hi
      rw [hq] at hq'
      cases hq'
      exact hrole
    refine .bind (h.fillAll hroles hc hI) fun c₁ h₁ => ?_
    obtain ⟨hc₁, hI₁⟩ := h₁
    have hrevoked : (revokeIfNull c₁ r (a.refinementArguments r)).Returns
        fun c₂ => c₂.Of a ∧ I c₂ := by
      cases hargs : a.refinementArguments r with
      | nil => exact .pure ⟨hc₁, hI₁⟩
      | cons first others =>
        refine revokeIfNull_returns.mono fun c₂ h₂ => ?_
        rcases h₂ with ⟨-, rfl⟩ | ⟨-, rfl⟩
        · exact ⟨hc₁, hI₁⟩
        · refine ⟨⟨hc₁.action, ?_⟩, h.revoke c₁ r hc₁ hI₁ (by simp [hargs])⟩
          rw [← hc₁.length]
          exact List.length_set
    exact .bind hrevoked fun c₂ h₂ => ih h₂.1 h₂.2

theorem fillLeft?_of (made : a.Made) {left : Option Value}
    (enfixed : left.isSome = true → a.enfixed = true) (hc : c.Of a) :
    (fillLeft? c left).Returns (CallState.Of · a) := by
  cases left with
  | none => exact .pure hc
  | some v =>
    obtain ⟨i, q, hi, hq, hr⟩ := made.firstArgument (enfixed rfl)
    have hlt : i < c.slots.length := by
      rw [hc.length]
      exact (List.getElem?_eq_some_iff.1 hq).1
    rw [← hc.action] at hi hq
    exact (fillLeft_returns hi hq hr hlt).mono fun c' he => he.of hc

/-- What holds when the left operand is in its slot, and what the passes keep of it. -/
theorem fulfil_keeps {q : PendingCall} (made : q.action.Made)
    (enfixed : q.left.isSome = true → q.action.enfixed = true)
    (hleft : (fillLeft? (CallState.start q) q.left).Returns I)
    (hmain : ev.MainKeeps frame q.action q.action.params.zipIdx I) (hIJ : ∀ c, I c → J c)
    (hpickup : ev.PickupKeeps frame q.action J) :
    (ev.fulfil frame q.left (CallState.start q)).Returns J := by
  have hw := made.wellOwned
  have hstart := fillLeft?_of made enfixed (CallState.start_of q)
  refine .bind (hstart.and hleft) fun c₁ h₁ => ?_
  rw [h₁.1.action]
  refine .bind (hmain.mainPass hw (fun e he => mem_entries.1 he) h₁.1 h₁.2) fun c₂ h₂ => ?_
  exact .after fun _ => hpickup.pickupPass hw h₂.1 (hIJ c₂ h₂.2)

/-! ### Filled slots -/

theorem not_mem_arguments_of_free {q : Param} (hq : a.params[i]? = some q) (hfree : q.owner = none) :
    i ∉ a.refinementArguments r := by
  intro hi
  obtain ⟨q', hq', howner⟩ := Action.mem_refinementArguments.1 hi
  rw [hq] at hq'
  cases hq'
  rw [hfree] at howner
  cases howner

section FilledSlot

variable {q : Param} {v : Value} (hw : WellOwned a.params) (hq : a.params[i]? = some q)
  (hfree : q.owner = none)
include hw hq hfree

theorem mainKeeps_slot {entries : List (Param × Nat)} :
    ev.MainKeeps frame a entries fun c => i ∈ c.filled ∧ c.slot i = v := by
  constructor
  · rintro c p j - hc ⟨hfilled, hslot⟩ hp hr hj
    refine (fillParam_extends hc hp hr).mono fun c' he => ?_
    have hne : i ∉ [j] := by
      rw [List.mem_singleton]
      rintro rfl
      exact hj hfilled
    exact ⟨he.mem_filled.2 (.inr hfilled), (he.other i hne).trans hslot⟩
  · rintro c c' p k - hc ⟨hfilled, hslot⟩ hp - hk hnoted
    have hne : i ≠ k := by
      rintro rfl
      exact hk hfilled
    have hnot : i ∉ k :: a.refinementArguments k := by
      rw [List.mem_cons, not_or]
      exact ⟨hne, not_mem_arguments_of_free hq hfree⟩
    rcases noteRefinement_extends hw hc hp hnoted with ⟨pickups, he⟩ | he
    · have hother := he.other i (by simpa using hne)
      exact ⟨he.mem_filled.2 (.inr hfilled), hother.trans hslot⟩
    · exact ⟨he.mem_filled.2 (.inr hfilled), (he.other i hnot).trans hslot⟩

theorem pickupKeeps_slot (hargs : a.refinementArguments i = []) :
    ev.PickupKeeps frame a fun c => i ∈ c.filled ∧ c.slot i = v := by
  constructor
  · intro c p j hc hI hp hr hj
    have hmem : (p, j) ∈ [(p, j)] := List.mem_singleton_self _
    exact (mainKeeps_slot hw hq hfree).fill c p j hmem hc hI hp hr hj
  · rintro c r hc ⟨hfilled, hslot⟩ hr
    have hne : i ≠ r := by
      rintro rfl
      exact hr hargs
    exact ⟨hfilled, (CallState.slot_refill_of_ne .null hne).trans hslot⟩

theorem fulfil_keeps_slot (hargs : a.refinementArguments i = []) (hc : c.Of a)
    (hfilled : i ∈ c.filled) :
    (ev.fulfil frame none c).Returns fun c' => c'.slot i = c.slot i := by
  have hI : i ∈ c.filled ∧ c.slot i = c.slot i := ⟨hfilled, rfl⟩
  show (ev.mainPass frame c.action.params.zipIdx c >>= _).Returns _
  rw [hc.action]
  refine .bind ((mainKeeps_slot hw hq hfree).mainPass hw (fun e he => mem_entries.1 he) hc hI)
    fun c₁ h₁ => .after fun _ => ?_
  have keeps : ev.PickupKeeps frame a fun c' => i ∈ c'.filled ∧ c'.slot i = c.slot i :=
    pickupKeeps_slot hw hq hfree hargs
  exact (keeps.pickupPass hw h₁.1 h₁.2).mono fun c' h' => h'.2

end FilledSlot

end Evaluator

end Homoicon
