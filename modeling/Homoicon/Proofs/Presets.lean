import Homoicon.Proofs.Passes

/-!
# Presets

A slot that a specialization filled beforehand is not gathered: the passes take the preset over, and
only a refinement that is not in use has null for its arguments instead.  The left operand does not
go through the passes.  It is put into the slot of the first argument whether that one has a preset
or not.
-/

namespace Homoicon

namespace Evaluator

variable {ev : Evaluator} {frame : Frame} {a : Action} {c c' : CallState} {p : Param} {i k : Nat}
  {left : Option Nat}

/-- The slot at `i` holds its preset, if it has one, or belongs to a refinement that is not in
use. -/
def SlotKeeps (a : Action) (c : CallState) (i : Nat) : Prop :=
  ∀ q w, a.params[i]? = some q → q.role ≠ .refinement → a.preset? i = some w →
    c.slot i = w ∨ ∃ r, q.owner = some r ∧ c.slot r = .null

/-- Every filled slot keeps its preset, but for the one at `left`. -/
def PresetsKept (a : Action) (left : Option Nat) (c : CallState) : Prop :=
  ∀ i ∈ c.filled, left ≠ some i → SlotKeeps a c i

/-- During the main pass the slots that are not filled are void; so no refinement that is still to
come counts as unused. -/
structure PresetsSoFar (a : Action) (left : Option Nat) (c : CallState) : Prop where
  kept : PresetsKept a left c
  void : ∀ i, i ∉ c.filled → c.slot i = .void

/-! ### Filling a slot -/

theorem fillParam_preset {w : Value} (hpreset : c.action.preset? i = some w)
    (hi : i < c.slots.length) : (ev.fillParam frame c p i).Returns fun c' => c'.slot i = w := by
  unfold fillParam
  rw [hpreset]
  exact .after fun _ => .pure (CallState.slot_fill_self w hi)

theorem SlotKeeps.congr (h : SlotKeeps a c i) (hslot : c'.slot i = c.slot i)
    (hnull : ∀ q r, a.params[i]? = some q → q.owner = some r → c.slot r = .null →
      c'.slot r = .null) : SlotKeeps a c' i := by
  intro q w hq hrole hw
  rcases h q w hq hrole hw with hpreset | ⟨r, howner, hr⟩
  · exact .inl (hslot.trans hpreset)
  · exact .inr ⟨r, howner, hnull q r hq howner hr⟩

theorem fillParam_presetsKept (hw : WellOwned a.params) (hc : c.Of a) (hI : PresetsKept a left c)
    (hp : a.params[i]? = some p) (hr : p.role ≠ .refinement) :
    (ev.fillParam frame c p i).Returns (PresetsKept a left) := by
  have hextends : (ev.fillParam frame c p i).Returns (c.Extends a.Allows [i] ·) :=
    fillParam_extends hc hp hr
  have hlt : i < c.slots.length := by
    rw [hc.length]
    exact (List.getElem?_eq_some_iff.1 hp).1
  have htaken : (ev.fillParam frame c p i).Returns fun c' =>
      ∀ w, a.preset? i = some w → c'.slot i = w := by
    cases hw : a.preset? i with
    | none =>
      refine hextends.mono fun c' _ w h => ?_
      cases h
    | some w =>
      refine (fillParam_preset (hc.action ▸ hw) hlt).mono fun c' hslot w' h => ?_
      cases h
      exact hslot
  refine (hextends.and htaken).mono fun c' h' j hj hleft => ?_
  obtain ⟨he, hslot⟩ := h'
  by_cases hji : j = i
  · intro q w _ _ hpreset
    subst hji
    exact .inl (hslot w hpreset)
  · have hfilled : j ∈ c.filled := by
      rcases he.mem_filled.1 hj with hmem | hmem
      · exact absurd (List.mem_singleton.1 hmem) hji
      · exact hmem
    refine (hI j hfilled hleft).congr (he.other j (by simpa using hji)) fun q r hq howner hnull => ?_
    have hne : r ≠ i := by
      rintro rfl
      obtain ⟨q', hq', hrole⟩ := (hw.owner_before j q r hq howner).2
      rw [hp] at hq'
      cases hq'
      exact hr hrole
    rw [he.other r (by simpa using hne)]
    exact hnull

theorem presetsSoFar_main (hw : WellOwned a.params) {entries : List (Param × Nat)} :
    ev.MainKeeps frame a entries (PresetsSoFar a left) := by
  constructor
  · intro c p i _ hc hI hp hr hi
    have hextends : (ev.fillParam frame c p i).Returns (c.Extends a.Allows [i] ·) :=
      fillParam_extends hc hp hr
    have hkept : (ev.fillParam frame c p i).Returns (PresetsKept a left) :=
      fillParam_presetsKept hw hc hI.kept hp hr
    refine (hextends.and hkept).mono fun c' h' => ⟨h'.2, fun j hj => ?_⟩
    have he := h'.1
    rw [he.mem_filled, not_or] at hj
    rw [he.other j hj.1]
    exact hI.void j hj.2
  · intro c c' p k _ hc hI hp hrole hk hnoted
    have hkvoid := hI.void k hk
    rcases noteRefinement_extends hw hc hp hnoted with ⟨pickups, he⟩ | he
    -- a refinement in use: only its own slot is filled
    · constructor
      · intro j hj hleft
        by_cases hjk : j = k
        · intro q w hq hqrole _
          subst hjk
          rw [hp] at hq
          cases hq
          exact absurd hrole hqrole
        · have hfilled : j ∈ c.filled := by
            rcases he.mem_filled.1 hj with hmem | hmem
            · exact absurd (List.mem_singleton.1 hmem) hjk
            · exact hmem
          refine (hI.kept j hfilled hleft).congr (he.other j (by simpa using hjk)) ?_
          intro q r _ _ hnull
          have hne : r ≠ k := by
            rintro rfl
            rw [hkvoid] at hnull
            cases hnull
          have hother := he.other r (by simpa using hne)
          exact hother.trans hnull
      · intro j hj
        rw [he.mem_filled, not_or] at hj
        have hother := he.other j hj.1
        exact hother.trans (hI.void j hj.2)
    -- one that is not in use: its slot is null, which excuses those of its arguments
    · have hnull : c'.slot k = .null := he.value k List.mem_cons_self
      constructor
      · intro j hj hleft
        by_cases hmem : j ∈ k :: a.refinementArguments k
        · intro q w hq hqrole _
          rcases List.mem_cons.1 hmem with rfl | hmem
          · rw [hp] at hq
            cases hq
            exact absurd hrole hqrole
          · obtain ⟨q', hq', howner, -⟩ := role_of_owned hw hmem
            rw [hq] at hq'
            cases hq'
            exact .inr ⟨k, howner, hnull⟩
        · have hfilled := (he.mem_filled.1 hj).resolve_left hmem
          refine (hI.kept j hfilled hleft).congr (he.other j hmem) fun q r _ _ hr => ?_
          by_cases hrmem : r ∈ k :: a.refinementArguments k
          · exact he.value r hrmem
          · rw [he.other r hrmem]
            exact hr
      · intro j hj
        rw [he.mem_filled, not_or] at hj
        rw [he.other j hj.1]
        exact hI.void j hj.2

/-- A revoked refinement counts as unused, and its arguments stay as they are. -/
theorem presetsKept_pickup (hw : WellOwned a.params) :
    ev.PickupKeeps frame a (PresetsKept a left) := by
  constructor
  · intro c p i hc hI hp hr _
    exact fillParam_presetsKept hw hc hI hp hr
  · intro c r hc hI hargs j hj hleft
    obtain ⟨p, hp, hrole⟩ := isRefinementAt_of_arguments hw hargs
    have hlt : r < c.slots.length := by
      rw [hc.length]
      exact (List.getElem?_eq_some_iff.1 hp).1
    by_cases hjr : j = r
    · intro q w hq hqrole _
      subst hjr
      rw [hp] at hq
      cases hq
      exact absurd hrole hqrole
    · refine (hI j hj hleft).congr (CallState.slot_refill_of_ne .null hjr) fun q r' _ _ hnull => ?_
      by_cases hrr : r' = r
      · subst hrr
        exact CallState.slot_refill_self .null hlt
      · exact (CallState.slot_refill_of_ne .null hrr).trans hnull

/-! ### The left operand -/

/-- What the slot of the first argument holds of a left operand: the operand itself, or varargs over
it. -/
def HoldsLeft (q : Param) (left v : Value) : Prop :=
  match q.role with
  | .variadic _ => ∃ id w, v = .varargs id w ∧ w.param = q
  | _ => v = left

theorem leftArgument_returns {q : Param} {left : Value} {label : String} :
    (leftArgument left q label).Returns (HoldsLeft q left) := by
  unfold leftArgument
  split
  · rename_i pull hrole
    unfold leftVarargs
    refine .after fun scope => .after fun feed => .after fun id => .pure ?_
    unfold HoldsLeft
    rw [hrole]
    exact ⟨_, _, rfl, rfl⟩
  · rename_i hrole
    refine .pure ?_
    unfold HoldsLeft
    split
    · exact absurd ‹_› (hrole _)
    · rfl

theorem fillLeft_start {q : PendingCall} {left : Value} {i : Nat} {p : Param}
    (hi : q.action.firstArgument? = some i) (hp : q.action.params[i]? = some p) :
    (fillLeft (CallState.start q) left).Returns fun c =>
      (i ∈ c.filled ∧ HoldsLeft p left (c.slot i)) ∧ PresetsSoFar q.action (some i) c := by
  have hlt : i < (CallState.start q).slots.length := by
    rw [(CallState.start_of q).length]
    exact (List.getElem?_eq_some_iff.1 hp).1
  have hfirst : (CallState.start q).action.firstArgument? = some i := hi
  have hparam : (CallState.start q).action.params[i]? = some p := hp
  unfold fillLeft
  simp only [hfirst, hparam]
  refine .bind leftArgument_returns fun v hv => .after fun _ => .pure ⟨⟨?_, ?_⟩, ?_, ?_⟩
  · exact List.mem_cons_self
  · rw [CallState.slot_fill_self v hlt]
    exact hv
  · intro j hj hleft
    have hji : j = i := by simpa [CallState.fill, CallState.start] using hj
    subst hji
    exact absurd rfl hleft
  · intro j hj
    have hji : j ≠ i := by
      rintro rfl
      exact hj List.mem_cons_self
    rw [CallState.slot_fill_of_ne v hji]
    exact CallState.slot_start q j

/-- The position that the left operand goes to, if there is one. -/
def leftPosition? (p : PendingCall) : Option Nat := p.left.bind fun _ => p.action.firstArgument?

theorem fillLeft?_presets {q : PendingCall} (made : q.action.Made)
    (enfixed : q.left.isSome = true → q.action.enfixed = true) :
    (fillLeft? (CallState.start q) q.left).Returns
      (PresetsSoFar q.action (leftPosition? q)) := by
  unfold leftPosition?
  cases hleft : q.left with
  | none =>
    refine .pure ⟨?_, ?_⟩
    · intro i hi
      cases hi
    · intro i _
      exact CallState.slot_start q i
  | some left =>
    obtain ⟨i, p, hi, hp, -⟩ := made.firstArgument (enfixed (by rw [hleft]; rfl))
    rw [Option.bind_some, hi]
    exact (fillLeft_start hi hp).mono fun c h => h.2

theorem fulfil_keeps_presets {q : PendingCall} (made : q.action.Made)
    (enfixed : q.left.isSome = true → q.action.enfixed = true) :
    (ev.fulfil frame q.left (CallState.start q)).Returns
      (PresetsKept q.action (leftPosition? q)) :=
  fulfil_keeps made enfixed (fillLeft?_presets made enfixed) (presetsSoFar_main made.wellOwned)
    (fun _ h => h.kept) (presetsKept_pickup made.wellOwned)

theorem fulfil_keeps_left {q : PendingCall} {left : Value} {i : Nat} {p : Param}
    (made : q.action.Made) (enfixed : q.action.enfixed = true) (hleft : q.left = some left)
    (hi : q.action.firstArgument? = some i) (hp : q.action.params[i]? = some p) :
    (ev.fulfil frame q.left (CallState.start q)).Returns fun c => HoldsLeft p left (c.slot i) := by
  have hw := made.wellOwned
  have hfree := Action.firstArgument?_free hw hi hp
  obtain ⟨j, p', hj, hp', hrole⟩ := made.firstArgument enfixed
  rw [hi] at hj
  cases hj
  rw [hp] at hp'
  cases hp'
  have hargs := arguments_eq_nil hw hp hrole
  intro m c m' h
  -- the slot has one value from the start on, which the passes keep
  obtain ⟨c₁, m₁, hstart, hrest⟩ := Eval.run_bind_eq_done.1 h
  have hstart' : fillLeft (CallState.start q) left m = (.done c₁, m₁) := by
    rw [hleft] at hstart
    exact hstart
  obtain ⟨⟨hfilled, hholds⟩, -⟩ := fillLeft_start hi hp m c₁ m₁ hstart'
  have hc₁ := fillLeft?_of made (fun _ => enfixed) (CallState.start_of q) m c₁ m₁ hstart
  rw [fulfil_keeps_slot hw hp hfree hargs hc₁ hfilled m₁ c m' hrest]
  exact hholds

/-- When the slots of a call are filled, every argument that has a preset holds it, unless it belongs
to a refinement that is not in use or was revoked; but the first argument of a call with a left
operand holds that operand, even if it has a preset. -/
theorem fulfil_presets (ev : Evaluator) (frame : Frame) (p : PendingCall) (m m' : Machine)
    (c : CallState) (made : p.action.Made)
    (enfixed : p.left.isSome = true → p.action.enfixed = true)
    (h : ev.fulfil frame p.left (CallState.start p) m = (.done c, m')) :
    (∀ i q w, p.action.params[i]? = some q → q.role ≠ .refinement → p.action.preset? i = some w →
      (∀ r, q.owner = some r → c.slot r ≠ .null) →
      (p.left.isSome = true → p.action.firstArgument? ≠ some i) → c.slot i = w) ∧
    ∀ left, p.left = some left → ∃ i q, p.action.firstArgument? = some i ∧
      p.action.params[i]? = some q ∧ HoldsLeft q left (c.slot i) := by
  constructor
  · intro i q w hq hrole hw hused hnot
    obtain ⟨haction, hfulfilled⟩ := fulfil_returns made enfixed m c m' h
    have hfilled : i ∈ c.filled := by
      rw [hfulfilled.filled_once.mem_iff, haction, List.mem_range]
      exact (List.getElem?_eq_some_iff.1 hq).1
    have hleft : leftPosition? p ≠ some i := by
      intro hi
      obtain ⟨left, hsome, hfirst⟩ := Option.bind_eq_some_iff.1 hi
      exact hnot (by rw [hsome]; rfl) hfirst
    have hkept := fulfil_keeps_presets made enfixed m c m' h i hfilled hleft
    rcases hkept q w hq hrole hw with hslot | ⟨r, howner, hnull⟩
    · exact hslot
    · exact absurd hnull (hused r howner)
  · intro left hleft
    have henfixed := enfixed (by rw [hleft]; rfl)
    obtain ⟨i, q, hi, hq, -⟩ := made.firstArgument henfixed
    exact ⟨i, q, hi, hq, fulfil_keeps_left made henfixed hleft hi hq m c m' h⟩

/-- A call `1 g`, where `g` is an action of `[a b]` with the presets 10 and 20, made enfix. -/
def presetInfix : PendingCall :=
  let base : Action :=
    { label := none
      params := (Spec.read [.word "a", .word "b"]).toOption.elim [] (·.params)
      signature := 0
      dispatcher := .returnTo 0
      exemplar := none
      enfixed := false
      deferral := .none
      description := none }
  let preset := base.specialized [some (.integer 10), some (.integer 20)]
  { action := { preset with enfixed := true }, label := "g", left := some (.integer 1) }

/-- The left operand replaces the preset of the first argument, and only that one. -/
theorem fulfil_presets_overridden : ∃ c : CallState,
    presetInfix.action.preset? 0 = some (.integer 10) ∧ c.slot 0 = .integer 1 ∧
      presetInfix.action.preset? 1 = some (.integer 20) ∧ c.slot 1 = .integer 20 := by
  let p := presetInfix
  let m : Machine := { Machine.new {} with feeds := #[{ units := [], scope := 0 }] }
  let words : Machine :=
    { Machine.new {} with
      scopes := ⟨#[{ bindings := [("a", .integer 10), ("b", .integer 20)] }]⟩ }
  let x := (Evaluator.ofConfig {}).fulfil { id := 0, feed := 0 } p.left (CallState.start p)
  have hx : (x m).1.result?.isSome = true := by decide +kernel
  obtain ⟨c, hc⟩ := Option.isSome_iff_exists.1 hx
  let base : Action := { p.action with exemplar := none, enfixed := false }
  have read : Spec.read [.word "a", .word "b"] = .ok { params := base.params } := rfl
  have taken : presetSlots base 0 base.params.zipIdx words =
      (.done [some (.integer 10), some (.integer 20)], words) := rfl
  have enfix : (base.specialized [some (.integer 10), some (.integer 20)]).enfixWith .none =
      .ok p.action := rfl
  have plain : base.Made := .read read (.inl rfl) rfl rfl
  have made : p.action.Made := .enfixed (.specialized plain taken) enfix
  obtain ⟨kept, overridden⟩ :=
    fulfil_presets _ _ p m _ c made (fun _ => rfl) (Eval.run_of_result? hc)
  obtain ⟨i, q, hi, hq, hleft⟩ := overridden (.integer 1) rfl
  cases hi
  cases hq
  have hsecond : c.slot 1 = .integer 20 := by
    apply kept 1 { name := "b", role := .normal } (.integer 20) rfl (by decide) rfl
    · intro r howner
      cases howner
    · intro _ hfirst
      cases hfirst
  exact ⟨c, rfl, hleft, rfl, hsecond⟩

end Evaluator

end Homoicon
