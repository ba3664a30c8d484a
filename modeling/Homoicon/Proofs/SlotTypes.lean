import Homoicon.Proofs.Adapting
import Homoicon.Proofs.Operands
import Homoicon.Proofs.Termination

/-!
# Slots of standard operations

However code calls an operation of the standard library, the operation begins with operands that it
knows.  An action that calls an operation has the parameters of the spec of that operation, whatever
was made of it; the slots are checked against these parameters when they are filled, and checked anew
when a prelude wrote to them.
-/

namespace Homoicon

/-- What values of a session with the standard library hold: an operation has its own parameters. -/
def Facts.regular : Facts where
  native n := n ∈ Registry.standard.natives
  overflow _ := True
  called n params := n.params? = some params
  host n op hn hop := absurd hop (Registry.standard_not_host n hn op)

/-- The guard that lets an operation begin with operands that it knows. -/
def Guard.regular (maxDepth : Nat) : Guard Facts.regular where
  stop _ := False
  patient := True
  maxDepth := maxDepth
  ready n c := n ∈ Registry.standard.natives ∧ c.Meets n.operation
  refused _ _ := .inr trivial
  whileTrue := Guard.whileTrue_of_patient
  host _ _ _ _ := trivial

theorem CallState.meets_of_wants_nil {c : CallState} {op : Operation} (h : op.wants = []) :
    c.Meets op := by
  intro w hw
  rw [h] at hw
  cases hw

/-! ### Calls -/

section Calls

variable {ev : Evaluator} {n : Native}

theorem Evaluator.fulfil_meets {frame : Frame} {p : PendingCall} (hp : p.action.Good Facts.regular) :
    (ev.fulfil frame p.left (CallState.start p)).Returns fun c =>
      ∀ n, p.action.dispatcher = .native n → n ∈ Registry.standard.natives ∧ c.Meets n.operation := by
  intro m c m' hrun n hd
  obtain ⟨hgood, -, hcalled⟩ := Action.good_iff.1 hp
  have hn : n ∈ Registry.standard.natives := by
    rw [hd] at hgood
    exact hgood
  have hparams : n.params? = some p.action.params := hcalled n hd
  by_cases hwants : n.operation.wants = []
  · exact ⟨hn, CallState.meets_of_wants_nil hwants⟩
  · obtain ⟨haction, hfulfilled⟩ := fulfil_owned (Native.params?_wellOwned hparams)
      (fun _ i q hi hq => Native.first_not_refinement hn hparams hwants rfl hi hq) m c m' hrun
    refine ⟨hn, Native.meets_of_holds hn hparams fun i q hq _ => .inl ?_⟩
    exact hfulfilled.holds i q (haction ▸ hq)

theorem CallState.meets_of_checked {c : CallState} (hc : c.action.Good Facts.regular)
    (hchecked : c.checkAll = .ok ()) (hd : c.action.dispatcher = .native n) :
    n ∈ Registry.standard.natives ∧ c.Meets n.operation := by
  obtain ⟨hgood, -, hcalled⟩ := Action.good_iff.1 hc
  have hn : n ∈ Registry.standard.natives := by
    rw [hd] at hgood
    exact hgood
  refine ⟨hn, Native.meets_of_holds hn (hcalled n hd) fun i q hq hr => ?_⟩
  exact checkSlot_holds (checkAll_eq_ok.1 hchecked i q hq) hr

theorem Guard.regular_calls {maxDepth nesting : Nat}
    (N : ((Guard.regular maxDepth).logic nesting).Nested ev) :
    ((Guard.regular maxDepth).logic nesting).Calls ev := by
  constructor
  intro id feed p hp
  let L := (Guard.regular maxDepth).logic nesting
  have hgood : L.Holds { frame := some id } (fun c => c.Good Facts.regular ∧ c.action = p.action)
      (ev.fulfil { id, feed } p.left (CallState.start p)) :=
    L.fulfil N (.start hp) hp.left
  have hfilled : L.Holds { frame := some id } (fun c => (c.Good Facts.regular ∧ c.action = p.action) ∧
      ∀ n, p.action.dispatcher = .native n →
        n ∈ Registry.standard.natives ∧ c.Meets n.operation)
      (ev.fulfil { id, feed } p.left (CallState.start p)) :=
    fun m hm => (hgood m hm).returns (Evaluator.fulfil_meets hp.action)
  refine L.bind L.note fun _ _ => L.bind hfilled fun c ⟨⟨hc, ha⟩, hmeets⟩ => ?_
  have hfuel : c.action.adaptations < p.action.adaptations + 1 + ev.patience := by
    rw [ha]
    exact Nat.lt_of_lt_of_le (Nat.lt_succ_self _) (Nat.le_add_right _ _)
  refine L.runFilled { id, feed } N hc (fun n hd => Guard.begins nesting (hmeets n (ha ▸ hd)))
    (fun c hc hagain n hd => Guard.begins nesting ?_) (.inl hfuel)
  rcases hagain with hchecked | ⟨host, op, hhost, hop⟩
  · exact CallState.meets_of_checked hc.action hchecked hd
  · exact absurd hop (Registry.standard_not_host host hhost op)

end Calls

/-! ### Histories -/

/-- The lives of sessions with the standard library whose host brings no values but such as code of
the session can come to: the history so far, and the session. -/
inductive Regular (c : Config) : List Moment → Session → Prop
  | start {listening : Bool} {s : Session}
    (h : Session.withRegistry c .standard listening = .ok s) :
    Regular c ((Session.prepare .standard).trace { Machine.new c with listening }) s
  | serve {t : List Moment} {s : Session} (r : HostRequest) (h : Regular c t s)
    (hr : r.Good Facts.regular) : Regular c (t ++ r.moments s) (r.serve s)

/-- What holds of a history and of the machine between two requests. -/
structure Checked (c : Config) (t : List Moment) (m : Machine) : Prop where
  stack : m.stack = []
  config : m.config = c
  good : m.Good Facts.regular
  fine : ∀ k ∈ t, (Guard.regular c.maxDepth).Fine k

namespace Checked

variable {c : Config} {t : List Moment} {m : Machine} {α : Type} {Q : α → Prop} {x : Eval α}

theorem new (c : Config) (listening : Bool) : Checked c [] { Machine.new c with listening } where
  stack := rfl
  config := rfl
  good := ⟨fun s hs => by simp [Machine.new] at hs, fun f hf => by simp [Machine.new] at hf,
    fun s hs => by simp [Machine.new] at hs⟩
  fine := by simp

theorem fits (h : Checked c t m) : (Guard.regular c.maxDepth).Fits (c.maxDepth + 1) m := by
  have hdepth : m.depth = 0 := by rw [Machine.depth, h.stack, List.length_nil]
  have hle : c.maxDepth ≤ c.maxDepth + 1 + m.depth := by omega
  exact ⟨h.good, congrArg Config.maxDepth h.config, hdepth ▸ Nat.zero_le _, hle⟩

theorem run (h : Checked c t m)
    (hx : ((Guard.regular c.maxDepth).logic (c.maxDepth + 1)).Holds {} Q x) :
    Checked c (t ++ x.trace m) (x m).2 := by
  obtain ⟨hclean, hpost⟩ := Guard.at_of_holds h.fits hx
  refine ⟨by rw [x.run_stack, h.stack], by rw [(x.trace_connected m).config, h.config],
    (hpost fun _ _ hk => hk).2, List.forall_mem_append.2 ⟨h.fine, fun k hk => ?_⟩⟩
  obtain ⟨before, after, ht⟩ := List.append_of_mem hk
  rw [ht] at hclean
  exact hclean.fine fun _ _ hk => hk

theorem serve {s : Session} (h : Checked c t s.machine) {r : HostRequest}
    (hr : r.Good Facts.regular) : Checked c (t ++ r.moments s) (r.serve s).machine := by
  cases hcode : r.code? with
  | some units =>
    obtain ⟨journal, hm⟩ := HostRequest.serve_machine s hcode
    have hev : s.evaluator = Evaluator.ofConfig c := by rw [Session.evaluator, h.config]
    have hnested := (Guard.regular c.maxDepth).nested_of_calls (fun _ _ N => Guard.regular_calls N)
      defaultPatience (c.maxDepth + 1)
    have hrun := h.run (x := (Evaluator.ofConfig c).runUnits units s.user)
      (hnested.runUnits (hr.code hcode))
    rw [hm, HostRequest.moments_of_code hcode, hev]
    exact ⟨hrun.stack, hrun.config, ⟨hrun.good.scopes, hrun.good.feeds, hrun.good.snapshots⟩,
      hrun.fine⟩
  | none =>
    obtain ⟨hs, hc, -, hg⟩ := HostRequest.serve_idle s hcode
    rw [HostRequest.moments_idle hcode, List.append_nil]
    exact ⟨hs.trans h.stack, hc.trans h.config, hg h.good hr, h.fine⟩

end Checked

theorem Regular.checked {c : Config} {t : List Moment} {s : Session} (h : Regular c t s) :
    Checked c t s.machine := by
  induction h with
  | @start listening s h =>
    have hinstalls : ∀ n ∈ Registry.standard.natives, Facts.regular.Installs n := by
      intro n hn
      refine ⟨hn, fun items spec hitems hspec => ?_⟩
      show n.params? = some spec.params
      simp [Native.params?, hitems, hspec, Except.toOption]
    have hrun := (Checked.new c listening).run (Logic.prepare hinstalls)
    rw [List.nil_append] at hrun
    obtain ⟨e, hs⟩ := Session.withRegistry_eq_ok h
    rw [hs]
    exact ⟨(Machine.note_stack _ e).trans hrun.stack, (Machine.note_config _ e).trans hrun.config,
      hrun.good.note e, hrun.fine⟩
  | serve r _ hr ih => exact ih.serve hr

/-! ### Texts against numbers -/

/-- The operations that order their operands. -/
def orderNames : List String := ["lesser?", "lesser-or-equal?", "greater?", "greater-or-equal?"]

theorem Registry.standard_orders : ∀ n ∈ Registry.standard.natives, ∀ op,
    n.operation = .comparison op → op.orders = true → n.name ∈ orderNames := by
  intro n hn op hop ho
  have hall : Registry.standard.natives.all (fun n => match n.operation with
      | .comparison op => !op.orders || orderNames.contains n.name
      | _ => true) = true := by decide
  have hname := List.all_eq_true.1 hall n hn
  rw [hop] at hname
  simpa [ho] using hname

/-- One of the two operands is a text and the other is a number. -/
def CallState.OrdersTextAgainstNumber (c : CallState) : Prop :=
  (c.slot 0).kind = .text ∧ (c.slot 1).kind ∈ [Kind.integer, Kind.decimal] ∨
    (c.slot 0).kind ∈ [Kind.integer, Kind.decimal] ∧ (c.slot 1).kind = .text

theorem CallState.ordersTextAgainstNumber_of_mixes {c : CallState} {op : Comparison}
    (ho : op.orders = true) (hmeets : c.Meets (.comparison op)) (h : c.Mixes) :
    c.OrdersTextAgainstNumber := by
  obtain ⟨hfirst, hsecond⟩ : (c.slot 0).kind ∈ [Kind.integer, .decimal, .text] ∧
      (c.slot 1).kind ∈ [Kind.integer, .decimal, .text] := by
    cases op with
    | lesser _ | greater _ =>
      exact ⟨hmeets _ List.mem_cons_self, hmeets _ (List.mem_cons_of_mem _ List.mem_cons_self)⟩
    | _ => cases ho
  simp only [List.mem_cons, List.not_mem_nil, or_false] at hfirst hsecond
  unfold OrdersTextAgainstNumber
  unfold Mixes at h
  rcases hfirst with hfirst | hfirst | hfirst <;> rcases hsecond with hsecond | hsecond | hsecond <;>
    simp [hfirst, hsecond] at h ⊢

/-- A standard operation that code calls comes to no fault for the kind of an operand, except that the
order of a text and a number is not defined. -/
theorem Regular.operands_known {c : Config} {t : List Moment} {s : Session} (h : Regular c t s)
    {n : Native} {call : CallState} {m : Machine} (hbegan : .asked (.mark (.operation n call)) m ∈ t) :
    n ∈ Registry.standard.natives ∧
    ∀ (ev : Evaluator) (frame : Frame),
      n.operation.NeverMismatches ev { frame, state := call } ∨
      n.name ∈ orderNames ∧ call.OrdersTextAgainstNumber ∧
        ∃ i, n.operation.run ev { frame, state := call } = .fail (call.mismatch i) := by
  obtain ⟨hn, hmeets⟩ : n ∈ Registry.standard.natives ∧ call.Meets n.operation :=
    h.checked.fine _ hbegan
  refine ⟨hn, fun ev frame => ?_⟩
  by_cases hmixes : ∃ op, n.operation = .comparison op ∧ op.orders = true ∧ call.Mixes
  · obtain ⟨op, hop, ho, hmixes⟩ := hmixes
    obtain ⟨i, hi⟩ := Comparison.run_of_mixes ho hmixes
    rw [hop] at hmeets
    refine .inr ⟨Registry.standard_orders n hn op hop ho,
      CallState.ordersTextAgainstNumber_of_mixes ho hmeets hmixes, i, ?_⟩
    simp only [hop, Operation.run, hi]
    rfl
  · left
    refine Operation.neverMismatches ev (Registry.standard_not_host n hn) hmeets fun op hop ho hm => ?_
    exact hmixes ⟨op, hop, ho, hm⟩

/-- The trap that guards the excursion begins with a block. -/
theorem Regular.operands_known_excursion :
    ∃ t s n call m, Regular { maxDepth := 6 } t s ∧ .asked (.mark (.operation n call)) m ∈ t ∧
      n.name = "trap" ∧
      ∀ ev frame, n.operation.NeverMismatches ev { frame, state := call } := by
  obtain ⟨s, units, hs, -, heventful⟩ := start_excursion
  simp only [isEventful, Bool.and_eq_true, List.any_eq_true] at heventful
  obtain ⟨⟨⟨⟨k, hk, hbegins⟩, -⟩, -⟩, -⟩ := heventful
  obtain ⟨n, call, m, rfl, hname⟩ :
      ∃ n call m, k = .asked (.mark (.operation n call)) m ∧ n.name = "trap" := by
    unfold Moment.begins at hbegins
    split at hbegins
    · exact ⟨_, _, _, rfl, by simpa using hbegins⟩
    · cases hbegins
  have hregular : Regular { maxDepth := 6 } _ _ := (Regular.start hs).serve excursion trivial
  have hbegan := List.mem_append_right
    ((Session.prepare .standard).trace { Machine.new { maxDepth := 6 } with listening := false }) hk
  refine ⟨_, _, n, call, m, hregular, hbegan, hname, fun ev frame => ?_⟩
  rcases (hregular.operands_known hbegan).2 ev frame with hnever | ⟨horder, -⟩
  · exact hnever
  · rw [hname] at horder
    exact absurd horder (by decide)

end Homoicon
