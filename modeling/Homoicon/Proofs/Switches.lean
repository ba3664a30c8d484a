import Homoicon.Evaluate.Step
import Homoicon.Proofs.Naming
import Homoicon.Proofs.Passes
import Homoicon.Proofs.Requests

/-!
# Silenced arguments and the refinements they switch on

The refinement that a silenced argument switches on is noted next, if the argument is taken in the
main pass.  The argument of a refinement is taken later, when the refinement behind it has been
noted already; to silence it switches nothing on.
-/

namespace Homoicon

def Feed.atSilenced (f : Feed) : Bool :=
  match f.peek with
  | some (.sym _) => true
  | _ => false

theorem Feed.atSilenced_iff {f : Feed} :
    f.atSilenced = true ↔ ∃ payload, f.peek = some (.sym payload) := by
  unfold atSilenced
  split
  · rename_i payload hpeek
    exact iff_of_true rfl ⟨payload, hpeek⟩
  · rename_i hother
    refine iff_of_false (by decide) ?_
    rintro ⟨payload, hpeek⟩
    exact hother payload hpeek

namespace Evaluator

variable {ev : Evaluator} {frame : Frame} {a : Action} {c c' : CallState} {p : Param} {i k : Nat}
  {m m' : Machine}

/-! ### What is switched on -/

theorem not_silenced_of_ended {feed : FeedId} {ended : Bool}
    (h : Eval.atArgumentEnd feed m = (.done ended, m')) :
    m' = m ∧ (ended = true → (m.feed feed).atSilenced = false) := by
  obtain ⟨unit?, m₁, hunit, h⟩ := Eval.run_bind_eq_done.1 h
  cases hunit
  unfold Feed.atSilenced
  split at h
  · rename_i hpeek
    cases h
    exact ⟨rfl, fun _ => by rw [show (m.feed feed).peek = none from hpeek]⟩
  · rename_i hpeek
    cases h
    exact ⟨rfl, fun _ => by rw [show (m.feed feed).peek = some .comma from hpeek]⟩
  · cases h
    exact ⟨rfl, fun he => by cases he⟩

/-- An argument switches the refinement behind it on exactly if it is a silenced one for a parameter
that looks at that. -/
theorem gather_modalOn {feed : FeedId} {r : Option Value × CallState}
    (h : ev.gather feed c p i m = (.done r, m')) :
    (p.role = .modal ∧ (m.feed feed).atSilenced) ∧ r.2 = { c with modalOn := c.modalOn ++ [i + 1] } ∨
      ¬(p.role = .modal ∧ (m.feed feed).atSilenced) ∧ r.2 = c := by
  unfold gather at h
  obtain ⟨ended, m₁, hended, h⟩ := Eval.run_bind_eq_done.1 h
  obtain ⟨rfl, hpeek⟩ := not_silenced_of_ended hended
  cases ended with
  | true =>
    have hnot : (m₁.feed feed).atSilenced = false := hpeek rfl
    simp only [if_true] at h
    split at h
    · cases h
      exact .inr ⟨fun hs => by simp [hnot] at hs, rfl⟩
    · cases h
  | false =>
    simp only [Bool.false_eq_true, if_false] at h
    obtain ⟨waiting, m₂, hwaiting, h⟩ := Eval.run_bind_eq_done.1 h
    cases hwaiting
    split at h
    · cases h
    · obtain ⟨unit?, m₃, hunit, h⟩ := Eval.run_bind_eq_done.1 h
      have hpeek : (m₁.feed feed).peek = unit? := by
        cases hunit
        rfl
      obtain rfl : m₁ = m₃ := by
        cases hunit
        rfl
      rw [Feed.atSilenced_iff, hpeek]
      cases unit? with
      | none => cases h
      | some unit =>
        simp only at h
        split at h
        · rename_i hrole
          refine .inr ⟨fun hs => by simp [hrole] at hs, ?_⟩
          split at h
          · cases h
            rfl
          · obtain ⟨_, _, -, h⟩ := Eval.run_bind_eq_done.1 h
            cases h
            rfl
        · rename_i hrole
          refine .inr ⟨fun hs => by simp [hrole] at hs, ?_⟩
          obtain ⟨_, _, -, h⟩ := Eval.run_bind_eq_done.1 h
          obtain ⟨_, _, -, h⟩ := Eval.run_bind_eq_done.1 h
          cases h
          rfl
        -- the one case in which the modal refinement is switched on
        · rename_i payload hrole
          refine .inl ⟨⟨hrole, payload, rfl⟩, ?_⟩
          split at h
          · cases h
          · obtain ⟨_, _, -, h⟩ := Eval.run_bind_eq_done.1 h
            obtain ⟨_, _, -, h⟩ := Eval.run_bind_eq_done.1 h
            cases h
            rfl
        · rename_i hother
          refine .inr ⟨?_, ?_⟩
          · rintro ⟨hrole, payload, hunit⟩
            exact hother payload hrole (Option.some.inj hunit)
          · obtain ⟨_, _, -, h⟩ := Eval.run_bind_eq_done.1 h
            cases h
            rfl

/-- The argument of `p` at `i` is about to be taken from a silenced reference. -/
def Silences (a : Action) (p : Param) (i : Nat) (f : Feed) : Prop :=
  a.preset? i = none ∧ p.role = .modal ∧ f.atSilenced

theorem fillParam_modalOn (h : ev.fillParam frame c p i m = (.done c', m')) :
    Silences c.action p i (m.feed frame.feed) ∧ c'.modalOn = c.modalOn ++ [i + 1] ∨
      ¬Silences c.action p i (m.feed frame.feed) ∧ c'.modalOn = c.modalOn := by
  unfold Silences
  unfold fillParam at h
  split at h
  · rename_i preset hpreset
    obtain ⟨_, _, -, h⟩ := Eval.run_bind_eq_done.1 h
    cases h
    exact .inr ⟨fun hs => by simp [hpreset] at hs, rfl⟩
  · rename_i hpreset
    split at h
    · rename_i hrole
      cases h
      exact .inr ⟨fun hs => by simp [hrole] at hs, rfl⟩
    · rename_i hrole
      obtain ⟨_, _, -, h⟩ := Eval.run_bind_eq_done.1 h
      cases h
      exact .inr ⟨fun hs => by simp [hrole] at hs, rfl⟩
    · rename_i hrole
      obtain ⟨_, _, -, h⟩ := Eval.run_bind_eq_done.1 h
      obtain ⟨_, _, -, h⟩ := Eval.run_bind_eq_done.1 h
      cases h
      exact .inr ⟨fun hs => by simp [hrole] at hs, rfl⟩
    · cases h
    · obtain ⟨⟨taken, c₁⟩, m₁, hgather, h⟩ := Eval.run_bind_eq_done.1 h
      have hfilled : c'.modalOn = c₁.modalOn := by
        cases taken with
        | none =>
          cases h
          rfl
        | some v =>
          obtain ⟨_, _, -, h⟩ := Eval.run_bind_eq_done.1 h
          cases h
          rfl
      rcases gather_modalOn hgather with ⟨hs, hc₁⟩ | ⟨hs, hc₁⟩ <;> simp only at hc₁
      · exact .inl ⟨⟨hpreset, hs⟩, by rw [hfilled, hc₁]⟩
      · exact .inr ⟨fun hs' => hs hs'.2, by rw [hfilled, hc₁]⟩

theorem modalOn_foldl_fill (indices : List Nat) :
    (indices.foldl (fun c i => c.fill i .null) c).modalOn = c.modalOn := by
  induction indices generalizing c with
  | nil => rfl
  | cons i rest ih => exact ih

theorem noteRefinement_modalOn (h : noteRefinement c p k = .ok c') : c'.modalOn = c.modalOn := by
  unfold noteRefinement at h
  simp only at h
  split at h
  · cases h
  · split at h
    · split at h <;> cases h <;> rfl
    · cases h
      exact modalOn_foldl_fill _

/-- A refinement without preset and arguments is in use if it is requested or switched on. -/
theorem noteRefinement_slot (hc : c.Of a) (hk : a.params[k]? = some p)
    (hpreset : a.preset? k = none) (hargs : a.refinementArguments k = [])
    (h : noteRefinement c p k = .ok c') :
    k ∈ c'.filled ∧ (c'.slot k = .null ∨ c'.slot k = .refinement p.name) ∧
      (c'.slot k = .refinement p.name ↔ isRequested c p = true ∨ k ∈ c.modalOn) := by
  obtain rfl := hc.action
  have hlt : k < c.slots.length := by
    rw [hc.length]
    exact (List.getElem?_eq_some_iff.1 hk).1
  have huse : isInUse c p k = true ↔ isRequested c p = true ∨ k ∈ c.modalOn := by
    simp [isInUse, hpreset]
  unfold noteRefinement at h
  simp only [hpreset, hargs, Option.any_none, Bool.and_false, Bool.false_eq_true, if_false,
    List.isEmpty_nil, if_true, List.foldl_nil] at h
  rw [← huse]
  split at h
  · rename_i hused
    cases h
    have hslot := CallState.slot_fill_self (c := { c with requests := matchRequest p.name c.requests })
      (.refinement p.name) hlt
    exact ⟨List.mem_cons_self, .inr hslot, fun _ => hused, fun _ => hslot⟩
  · rename_i hunused
    cases h
    have hslot := CallState.slot_fill_self (c := { c with requests := matchRequest p.name c.requests })
      .null hlt
    refine ⟨List.mem_cons_self, .inl hslot, fun he => ?_, fun hused => absurd hused hunused⟩
    rw [hslot] at he
    cases he

/-! ### Until the silenced argument -/

/-- The refinement at `k` is still to be noted, and nothing has switched it on. -/
structure Unnoted (requests : List String) (s : Param) (k : Nat) (c : CallState) : Prop where
  unfilled : k ∉ c.filled
  requested : isRequested c s = true ↔ s.name ∈ requests
  off : k ∉ c.modalOn

theorem isRequested_start (q : PendingCall) (s : Param) :
    isRequested (CallState.start q) s = true ↔ s.name ∈ q.requests := by
  unfold isRequested CallState.start
  rw [List.any_map]
  simp

theorem isRequested_of_ne {s : Param} (hne : p.name ≠ s.name)
    (h : c'.requests = matchRequest p.name c.requests) : isRequested c' s = isRequested c s := by
  unfold isRequested
  rw [h]
  generalize c.requests = requests
  induction requests with
  | nil => rfl
  | cons r rest ih =>
    unfold matchRequest
    split
    · rename_i hfirst
      have hname : r.name = p.name := eq_of_beq (Bool.and_eq_true_iff.1 hfirst).2
      have hother : (r.name == s.name) = false := by simpa [hname] using hne
      simp [hother]
    · rw [List.any_cons, List.any_cons, ih]

theorem unnoted_start {q : PendingCall} (made : q.action.Made)
    (enfixed : q.left.isSome = true → q.action.enfixed = true) {s : Param}
    (hs : q.action.params[k]? = some s) (hrole : s.role = .refinement) :
    (fillLeft? (CallState.start q) q.left).Returns (Unnoted q.requests s k) := by
  have hstart : Unnoted q.requests s k (CallState.start q) :=
    ⟨by simp [CallState.start], isRequested_start q s, by simp [CallState.start]⟩
  cases hleft : q.left with
  | none => exact .pure hstart
  | some left =>
    obtain ⟨j, p, hj, hp, hargument⟩ := made.firstArgument (enfixed (by rw [hleft]; rfl))
    have hfirst : (CallState.start q).action.firstArgument? = some j := hj
    have hparam : (CallState.start q).action.params[j]? = some p := hp
    have hne : k ≠ j := by
      rintro rfl
      rw [hs] at hp
      cases hp
      exact hargument hrole
    unfold fillLeft? fillLeft
    simp only [hfirst, hparam]
    refine .after fun v => .after fun _ => .pure ⟨?_, hstart.requested, hstart.off⟩
    intro hmem
    rcases List.mem_cons.1 hmem with he | hmem
    · exact hne he
    · exact hstart.unfilled hmem

theorem unnoted_main (hw : WellOwned a.params) (hn : Named a.params) {requests : List String}
    {s : Param} (hs : a.params[i + 1]? = some s) (hrole : s.role = .refinement) :
    ev.MainKeeps frame a (a.params.zipIdx.take i) (Unnoted requests s (i + 1)) := by
  have hbefore : ∀ {p : Param} {j : Nat}, (p, j) ∈ a.params.zipIdx.take i → j < i := by
    intro p j hmem
    obtain ⟨n, hn⟩ := List.getElem?_of_mem hmem
    rw [List.getElem?_take] at hn
    split at hn
    · rename_i hlt
      rw [List.getElem?_zipIdx, Option.map_eq_some_iff] at hn
      obtain ⟨_, -, he⟩ := hn
      simp only [Nat.zero_add, Prod.mk.injEq] at he
      omega
    · cases hn
  have hfree := hw.refinement_free (i + 1) s hs hrole
  constructor
  · intro c p j hmem hc hI hp hargument _ m c' m' h
    have hlt := hbefore hmem
    have he := fillParam_extends hc hp hargument m c' m' h
    refine ⟨?_, ?_, ?_⟩
    · rw [he.mem_filled, List.mem_singleton, not_or]
      exact ⟨by omega, hI.unfilled⟩
    · rw [← hI.requested, isRequested, isRequested, requests_fillParam h]
    · rcases fillParam_modalOn h with ⟨-, hon⟩ | ⟨-, hon⟩
      · rw [hon, List.mem_append, List.mem_singleton, not_or]
        exact ⟨hI.off, by omega⟩
      · rw [hon]
        exact hI.off
  · intro c c' p j hmem hc hI hp _ _ hnoted
    have hlt := hbefore hmem
    have hne : p.name ≠ s.name := by
      intro hname
      have hnext := (hn j (i + 1) p s hp hs (by omega) hname).1
      omega
    refine ⟨?_, ?_, ?_⟩
    · have hnot : i + 1 ∉ j :: a.refinementArguments j := by
        rw [List.mem_cons, not_or]
        exact ⟨by omega, not_mem_arguments_of_free hs hfree⟩
      rcases noteRefinement_extends hw hc hp hnoted with ⟨pickups, he⟩ | he
      · rw [he.mem_filled, List.mem_singleton, not_or]
        exact ⟨by omega, hI.unfilled⟩
      · rw [he.mem_filled, not_or]
        exact ⟨hnot, hI.unfilled⟩
    · rw [← hI.requested, isRequested_of_ne hne (requests_noteRefinement hnoted)]
    · rw [noteRefinement_modalOn hnoted]
      exact hI.off

/-! ### The turn of the silenced argument -/

/-- The call as it is when the main pass comes to the parameter at `i`. -/
def atTurn (ev : Evaluator) (frame : Frame) (q : PendingCall) (i : Nat) : Eval CallState := do
  let c ← fillLeft? (CallState.start q) q.left
  ev.mainPass frame (q.action.params.zipIdx.take i) c

/-- When the main pass comes to the parameter at `i`, its slot is empty and a silenced reference is
next. -/
def TakesSilenced (ev : Evaluator) (frame : Frame) (q : PendingCall) (m : Machine) (i : Nat) :
    Prop :=
  ∃ c m', ev.atTurn frame q i m = (.done c, m') ∧ i ∉ c.filled ∧ (m'.feed frame.feed).atSilenced

theorem mainPass_turn {requests : List String} {s : Param} {entries : List (Param × Nat)}
    (hc : c.Of a) (hI : Unnoted requests s (i + 1) c) (hp : a.params[i]? = some p)
    (hmodal : p.role = .modal) (hpreset : a.preset? i = none)
    (h : ev.mainPass frame ((p, i) :: entries) c m = (.done c', m')) :
    ∃ c₁ m₁, ev.mainPass frame entries c₁ m₁ = (.done c', m') ∧ c₁.Of a ∧ i + 1 ∉ c₁.filled ∧
      (isRequested c₁ s = true ↔ s.name ∈ requests) ∧
      (i + 1 ∈ c₁.modalOn ↔
        p.owner = none ∧ i ∉ c.filled ∧ (m.feed frame.feed).atSilenced) := by
  unfold Evaluator.mainPass at h
  split at h
  · rename_i hskip
    rw [Bool.or_eq_true, CallState.isFilled, List.contains_iff_mem] at hskip
    refine ⟨c, m, h, hc, hI.unfilled, hI.requested, fun hon => absurd hon hI.off, ?_⟩
    rintro ⟨hfree, hopen, -⟩
    rcases hskip with hfilled | howned
    · exact absurd hfilled hopen
    · rw [hfree] at howned
      cases howned
  · rename_i hskip
    rw [Bool.or_eq_true, not_or, CallState.isFilled, List.contains_iff_mem] at hskip
    obtain ⟨hopen, hfree⟩ := hskip
    have hargument : p.role ≠ .refinement := by
      rw [hmodal]
      decide
    rw [if_neg (by simp [hargument])] at h
    obtain ⟨c₁, m₁, hfill, h⟩ := Eval.run_bind_eq_done.1 h
    have he := fillParam_extends hc hp hargument m c₁ m₁ hfill
    refine ⟨c₁, m₁, h, he.of hc, ?_, ?_, ?_⟩
    · rw [he.mem_filled, List.mem_singleton, not_or]
      exact ⟨Nat.succ_ne_self i, hI.unfilled⟩
    · rw [← hI.requested, isRequested, isRequested, requests_fillParam hfill]
    · have hfree : p.owner = none := by simpa using hfree
      rcases fillParam_modalOn hfill with ⟨hs, hon⟩ | ⟨hs, hon⟩
      · rw [hon]
        exact iff_of_true (by simp) ⟨hfree, hopen, hs.2.2⟩
      · rw [hon]
        refine iff_of_false hI.off ?_
        rintro ⟨-, -, hsilenced⟩
        exact hs ⟨by rw [hc.action]; exact hpreset, hmodal, hsilenced⟩

/-- The refinement behind a silenced argument is in use exactly if it is requested or the argument
is taken in the main pass from a silenced reference. -/
theorem mainPass_switches {q : PendingCall} (made : q.action.Made)
    (enfixed : q.left.isSome = true → q.action.enfixed = true) {s : Param}
    (hp : q.action.params[i]? = some p) (hmodal : p.role = .modal)
    (hpreset : q.action.preset? i = none) (hpreset' : q.action.preset? (i + 1) = none)
    (hs : q.action.params[i + 1]? = some s) (hrole : s.role = .refinement)
    (hargs : q.action.refinementArguments (i + 1) = []) {c₁ : CallState} {m₁ : Machine}
    (hleft : fillLeft? (CallState.start q) q.left m = (.done c₁, m₁))
    (h : ev.mainPass frame q.action.params.zipIdx c₁ m₁ = (.done c', m')) :
    c'.Of q.action ∧ i + 1 ∈ c'.filled ∧
      (c'.slot (i + 1) = .null ∨ c'.slot (i + 1) = .refinement s.name) ∧
      (c'.slot (i + 1) = .refinement s.name ↔
        s.name ∈ q.requests ∨ p.owner = none ∧ ev.TakesSilenced frame q m i) := by
  have hw := made.wellOwned
  have hfree := hw.refinement_free (i + 1) s hs hrole
  have hc₁ := fillLeft?_of made enfixed (CallState.start_of q) m c₁ m₁ hleft
  have hI₁ := unnoted_start made enfixed hs hrole m c₁ m₁ hleft
  rw [← List.take_append_drop i q.action.params.zipIdx, mainPass_append, drop_entries hp,
    drop_entries hs] at h
  obtain ⟨c₂, m₂, hbefore, h⟩ := Eval.run_bind_eq_done.1 h
  have hentries : ∀ e ∈ q.action.params.zipIdx.take i, q.action.params[e.2]? = some e.1 :=
    fun e he => mem_entries.1 (List.mem_of_mem_take he)
  obtain ⟨hc₂, hI₂⟩ := (unnoted_main hw made.named hs hrole).mainPass hw hentries hc₁ hI₁ m₁ c₂ m₂
    hbefore
  have hturn : ev.atTurn frame q i m = (.done c₂, m₂) :=
    (Eval.run_bind_of_done hleft).trans hbefore
  have htakes : ev.TakesSilenced frame q m i ↔
      i ∉ c₂.filled ∧ (m₂.feed frame.feed).atSilenced := by
    constructor
    · rintro ⟨c, m', hturn', htaken⟩
      rw [hturn] at hturn'
      cases hturn'
      exact htaken
    · exact fun htaken => ⟨c₂, m₂, hturn, htaken⟩
  obtain ⟨c₃, m₃, h, hc₃, hopen, hrequested, hon⟩ := mainPass_turn hc₂ hI₂ hp hmodal hpreset h
  -- the refinement comes next
  unfold Evaluator.mainPass at h
  rw [if_neg (by simp [CallState.isFilled, hopen, hfree]), if_pos (by simp [hrole])] at h
  obtain ⟨c₄, m₄, hnoted, h⟩ := Eval.run_bind_eq_done.1 h
  have hnoting : (Eval.ofExcept (noteRefinement c₃ s (i + 1))).Returns
      fun c => noteRefinement c₃ s (i + 1) = .ok c := .ofExcept fun _ hok => hok
  have hnoted := hnoting m₃ c₄ m₄ hnoted
  have hc₄ := noteRefinement_of hw hc₃ hs hnoted
  obtain ⟨hfilled, heither, hiff⟩ := noteRefinement_slot hc₃ hs hpreset' hargs hnoted
  have hentries : ∀ e ∈ q.action.params.zipIdx.drop (i + 1 + 1),
      q.action.params[e.2]? = some e.1 := fun e he => mem_entries.1 (List.mem_of_mem_drop he)
  obtain ⟨hc, hkept, hslot⟩ := (mainKeeps_slot hw hs hfree).mainPass hw hentries hc₄
    ⟨hfilled, rfl⟩ m₄ c' m' h
  refine ⟨hc, hkept, ?_, ?_⟩
  · rw [hslot]
    exact heither
  · rw [hslot, hiff, hrequested, hon, htakes]

/-- A silenced argument has a refinement behind it.  When the slots of a call are filled, that one
is in use exactly if it was requested, or the argument belongs to no refinement itself and was taken
from a silenced reference.  To silence the argument of a refinement switches nothing on. -/
theorem fulfil_switches (ev : Evaluator) (frame : Frame) (q : PendingCall) (m m' : Machine)
    (c : CallState) (made : q.action.Made)
    (enfixed : q.left.isSome = true → q.action.enfixed = true)
    (h : ev.fulfil frame q.left (CallState.start q) m = (.done c, m')) (i : Nat) (p : Param)
    (hp : q.action.params[i]? = some p) (hmodal : p.role = .modal)
    (hpreset : q.action.preset? i = none) (hpreset' : q.action.preset? (i + 1) = none) :
    ∃ s, q.action.params[i + 1]? = some s ∧ s.role = .refinement ∧
      (c.slot (i + 1) = .null ∨ c.slot (i + 1) = .refinement s.name) ∧
      (c.slot (i + 1) = .refinement s.name ↔
        s.name ∈ q.requests ∨ p.owner = none ∧ ev.TakesSilenced frame q m i) := by
  have hw := made.wellOwned
  obtain ⟨s, hs, hrole, hargs⟩ := made.switch hp hmodal
  have hfree := hw.refinement_free (i + 1) s hs hrole
  obtain ⟨c₁, m₁, hleft, h⟩ := Eval.run_bind_eq_done.1 h
  have hc₁ := fillLeft?_of made enfixed (CallState.start_of q) m c₁ m₁ hleft
  rw [hc₁.action] at h
  obtain ⟨c₂, m₂, hmain, h⟩ := Eval.run_bind_eq_done.1 h
  obtain ⟨hc₂, hfilled, heither, hiff⟩ := mainPass_switches made enfixed hp hmodal hpreset hpreset'
    hs hrole hargs hleft hmain
  obtain ⟨_, m₃, -, hpickup⟩ := Eval.run_bind_eq_done.1 h
  obtain ⟨-, hslot⟩ := (pickupKeeps_slot hw hs hfree hargs).pickupPass hw hc₂ ⟨hfilled, rfl⟩ m₃ c m'
    hpickup
  rw [hslot]
  exact ⟨s, hs, hrole, heither, hiff⟩

def silencingSpec : List Value :=
  [.word "x", .sym (.word "n"), .refinement "t", .refinement "r", .sym (.word "m"),
    .refinement "s"]

/-- A call `f/r` of an action of `[x @n /t /r @m /s]`. -/
def silencingCall : PendingCall :=
  { action :=
      { label := none
        params := (Spec.read silencingSpec).toOption.elim [] (·.params)
        signature := 0
        dispatcher := .returnTo 0
        exemplar := none
        enfixed := false
        deferral := .none
        description := none }
    label := "f"
    requests := ["r"] }

/-- In `f/r 1 @2 @3` both arguments are silenced, and only the first one switches its refinement
on. -/
theorem fulfil_switches_first : ∃ c : CallState,
    c.slots.map Value.mold = ["1", "2", "/t", "/r", "3", "null"] ∧
      c.slot 2 = .refinement "t" ∧ c.slot 5 = .null := by
  let q := silencingCall
  let frame : Frame := { id := 0, feed := 0 }
  let units : List Value := [.integer 1, .sym (.integer 2), .sym (.integer 3)]
  let m : Machine := { Machine.new {} with feeds := #[{ units, scope := 0 }] }
  let ev := Evaluator.ofConfig {}
  let x := ev.fulfil frame q.left (CallState.start q)
  have hx : (x m).1.result?.map (fun c => c.slots.map Value.mold) =
      some ["1", "2", "/t", "/r", "3", "null"] := by
    decide +kernel
  obtain ⟨c, hc, hslots⟩ := Option.map_eq_some_iff.1 hx
  let y := ev.atTurn frame q 1
  have hturn : ((y m).1.result?.any fun c => !c.isFilled 1) = true := by decide +kernel
  obtain ⟨c₁, hc₁, hopen⟩ := (Option.any_eq_true _ _).1 hturn
  have hnext : ((y m).2.feed frame.feed).atSilenced = true := by decide +kernel
  have takes : ev.TakesSilenced frame q m 1 :=
    ⟨c₁, (y m).2, Eval.run_of_result? hc₁, by simpa [CallState.isFilled] using hopen, hnext⟩
  have read : Spec.read silencingSpec = .ok { params := q.action.params } := rfl
  have made : q.action.Made := .read read (.inl rfl) rfl rfl
  have switches := fulfil_switches ev frame q m _ c made (fun hleft => by cases hleft)
    (Eval.run_of_result? hc)
  refine ⟨c, hslots, ?_, ?_⟩
  · obtain ⟨s, hs, -, -, hon⟩ := switches 1 _ rfl rfl rfl rfl
    cases hs
    exact hon.2 (.inr ⟨rfl, takes⟩)
  · obtain ⟨s, hs, -, heither, hon⟩ := switches 4 _ rfl rfl rfl rfl
    cases hs
    refine heither.resolve_right fun hused => ?_
    rcases hon.1 hused with hrequested | ⟨howned, -⟩
    · exact absurd hrequested (by decide)
    · cases howned

end Evaluator

end Homoicon
