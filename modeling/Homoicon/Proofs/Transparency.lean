import Mathlib.Data.Set.Insert
import Homoicon.Proofs.Life
import Homoicon.Proofs.Mirror
import Homoicon.Proofs.Tandem.Steps

/-!
# Limits are transparent

How deep frames may nest, how often a stop is looked for and whether steps are noted are limits on a
run and ways to look at it.  As long as no frame is refused and no stop is requested, they decide
nothing: with other limits, no lower ones for the depth, the run goes the same way.
-/

namespace Homoicon

/-- Two machines that differ in their limits and in what is noted, with nobody to request a stop. -/
structure Machine.Twin (m m' : Machine) : Prop where
  alike : ∃ config countdown listening journal,
    m' = { m with config, countdown, listening, journal }
  maxDepth_le : m.config.maxDepth ≤ m'.config.maxDepth
  hook : m.hook = none
  interrupt : m.interrupt = false

namespace Machine.Twin

variable {m m' : Machine} (h : m.Twin m')
include h

theorem scopes : m'.scopes = m.scopes := by
  obtain ⟨_, _, _, _, rfl⟩ := h.alike
  rfl

theorem tick : m'.tick = m.tick := by
  obtain ⟨_, _, _, _, rfl⟩ := h.alike
  rfl

theorem nextFrame : m'.nextFrame = m.nextFrame := by
  obtain ⟨_, _, _, _, rfl⟩ := h.alike
  rfl

theorem depth : m'.depth = m.depth := by
  obtain ⟨_, _, _, _, rfl⟩ := h.alike
  rfl

theorem symm_hook : m'.hook = none := by
  obtain ⟨⟨_, _, _, _, rfl⟩, -, hhook, -⟩ := h
  exact hhook

theorem symm_interrupt : m'.interrupt = false := by
  obtain ⟨⟨_, _, _, _, rfl⟩, -, -, hinterrupt⟩ := h
  exact hinterrupt

theorem journals (journal journal' : Array Event) :
    ({ m with journal } : Machine).Twin { m' with journal := journal' } := by
  obtain ⟨⟨_, _, _, _, rfl⟩, hdepth, hhook, hinterrupt⟩ := h
  exact ⟨⟨_, _, _, _, rfl⟩, hdepth, hhook, hinterrupt⟩

theorem note (e e' : Event) : (m.note e).Twin (m'.note e') := by
  obtain ⟨_, hm⟩ := m.note_eq e
  obtain ⟨_, hm'⟩ := m'.note_eq e'
  rw [hm, hm']
  exact h.journals _ _

theorem enter (label : Option String) : (m.enter label).Twin (m'.enter label) := by
  obtain ⟨⟨_, _, _, _, rfl⟩, hdepth, hhook, hinterrupt⟩ := h
  exact ⟨⟨_, _, _, _, rfl⟩, hdepth, hhook, hinterrupt⟩

theorem leave (id : FrameId) : (m.leave id).Twin (m'.leave id) := by
  obtain ⟨⟨_, _, _, _, rfl⟩, hdepth, hhook, hinterrupt⟩ := h
  exact ⟨⟨_, _, _, _, rfl⟩, hdepth, hhook, hinterrupt⟩

theorem define (s : ScopeId) (name : String) (v : Value) :
    ({ m with scopes := m.scopes.define s name v } : Machine).Twin
      { m' with scopes := m'.scopes.define s name v } := by
  obtain ⟨⟨_, _, _, _, rfl⟩, hdepth, hhook, hinterrupt⟩ := h
  exact ⟨⟨_, _, _, _, rfl⟩, hdepth, hhook, hinterrupt⟩

theorem assign (s : ScopeId) (name : String) (v : Value) :
    (m.assign s name v).Twin (m'.assign s name v) := by
  obtain ⟨⟨_, _, _, _, rfl⟩, hdepth, hhook, hinterrupt⟩ := h
  obtain ⟨_, hm⟩ := m.assign_eq s name v
  obtain ⟨_, hm'⟩ := Machine.assign_eq _ s name v
  rw [hm, hm']
  exact ⟨⟨_, _, _, _, rfl⟩, hdepth, hhook, hinterrupt⟩

end Machine.Twin

theorem Machine.poll_idle {m : Machine} (hhook : m.hook = none) (hinterrupt : m.interrupt = false) :
    ∃ countdown, m.poll = (none, { m with tick := m.tick + 1, countdown }) := by
  unfold Machine.poll
  simp only [hhook, hinterrupt]
  split
  · exact ⟨_, rfl⟩
  · exact ⟨_, rfl⟩

/-! ### Calm runs -/

/-- No frame is refused, and no stop is requested. -/
def Moment.Calm (k : Moment) : Prop := k.isRefused = false ∧ k.after.interrupt = false

instance (k : Moment) : Decidable k.Calm := inferInstanceAs (Decidable (_ ∧ _))

theorem Command.run_twin {β : Type} (c : Command β) {m m' : Machine} (h : m.Twin m')
    (hcalm : (c.run m).2.interrupt = false) :
    (c.run m').1 = (c.run m).1 ∧ (c.run m).2.Twin (c.run m').2 := by
  cases c with
  | assign scope name v => exact ⟨rfl, h.assign scope name v⟩
  | define scope name v => exact ⟨rfl, h.define scope name v⟩
  | poll =>
    obtain ⟨_, hm⟩ := Machine.poll_idle h.hook h.interrupt
    obtain ⟨_, hm'⟩ := Machine.poll_idle h.symm_hook h.symm_interrupt
    rw [Command.run, Command.run, hm, hm']
    obtain ⟨⟨_, _, _, _, rfl⟩, hdepth, hhook, hinterrupt⟩ := h
    exact ⟨rfl, ⟨_, _, _, _, rfl⟩, hdepth, hhook, hinterrupt⟩
  | note e => exact ⟨rfl, h.note e e⟩
  | noteState id state =>
    refine ⟨rfl, ?_⟩
    have noted : ∀ n : Machine, ∃ journal, ((Command.noteState id state).run n).2 =
        { n with journal } := by
      intro n
      simp only [Command.run]
      split
      · exact n.note_eq _
      · exact ⟨n.journal, rfl⟩
    obtain ⟨_, hm⟩ := noted m
    obtain ⟨_, hm'⟩ := noted m'
    rw [hm, hm']
    exact h.journals _ _
  | requestStop => cases hcalm
  | _ =>
    obtain ⟨⟨_, _, _, _, rfl⟩, hdepth, hhook, hinterrupt⟩ := h
    exact ⟨rfl, ⟨_, _, _, _, rfl⟩, hdepth, hhook, hinterrupt⟩

/-- If `x` runs calmly on `m`, then `x'` runs the same way on `m'`. -/
def Transparent {α : Type} (Q : α → Prop) (x x' : Eval α) (m m' : Machine) : Prop :=
  (∀ k ∈ x.trace m, k.Calm) →
    (x' m').1 = (x m).1 ∧ (x m).2.Twin (x' m').2 ∧ ∀ a, (x m).1 = .done a → Q a

namespace Transparent

variable {α β : Type} {m m' : Machine} {P Q : α → Prop} {x x' : Eval α}

theorem atOnce {o : Outcome α} (h : m.Twin m') (hx : ∀ n, x n = (o, n))
    (ho : ∀ a, o = .done a → Q a) : Transparent Q x x m m' := by
  intro _
  rw [hx, hx]
  exact ⟨rfl, h, ho⟩

theorem ret {a : α} (h : m.Twin m') (ha : Q a) : Transparent Q (pure a) (pure a) m m' := by
  refine .atOnce h (fun _ => rfl) ?_
  rintro _ ⟨⟩
  exact ha

theorem fail {f : Fault} (h : m.Twin m') : Transparent Q (.fail f) (.fail f) m m' := by
  refine .atOnce h (fun _ => rfl) ?_
  rintro _ ⟨⟩

theorem signal {s : Signal} (h : m.Twin m') : Transparent Q (.signal s) (.signal s) m m' := by
  refine .atOnce h (fun _ => rfl) ?_
  rintro _ ⟨⟩

theorem exhaust (h : m.Twin m') : Transparent Q .exhaust .exhaust m m' := by
  refine .atOnce h (fun _ => rfl) ?_
  rintro _ ⟨⟩

theorem bind {Q : β → Prop} {f f' : α → Eval β} (hx : Transparent P x x' m m')
    (hf : ∀ a n n', x m = (.done a, n) → P a → n.Twin n' → Transparent Q (f a) (f' a) n n') :
    Transparent Q (x >>= f) (x' >>= f') m m' := by
  intro hcalm
  rw [Eval.trace_bind] at hcalm
  obtain ⟨hcalm, hrest⟩ := List.forall_mem_append.1 hcalm
  obtain ⟨hout, htwin, hq⟩ := hx hcalm
  rw [Eval.run_bind, Eval.run_bind]
  rcases hrun : x m with ⟨a | s | e | _, n⟩ <;> rcases hrun' : x' m' with ⟨o', n'⟩ <;>
    rw [hrun] at hout htwin hq <;> rw [hrun'] at hout htwin <;> cases hout
  · rw [hrun] at hrest
    exact hf a n n' hrun (hq a rfl) htwin hrest
  all_goals exact ⟨rfl, htwin, by simp⟩

theorem turned {turn : Outcome α → Outcome β} {Q' : β → Prop} {y y' : Eval β}
    (hy : ∀ n, y n = (turn (x n).1, (x n).2)) (hy' : ∀ n, y' n = (turn (x' n).1, (x' n).2))
    (htrace : y.trace m = x.trace m)
    (hturn : ∀ o : Outcome α, (∀ a, o = .done a → Q a) → ∀ b, turn o = .done b → Q' b)
    (h : Transparent Q x x' m m') : Transparent Q' y y' m m' := by
  intro hcalm
  rw [htrace] at hcalm
  obtain ⟨hout, htwin, hq⟩ := h hcalm
  rw [hy, hy', hout]
  exact ⟨rfl, htwin, hturn _ hq⟩

theorem ask (c : Command β) (h : m.Twin m') :
    Transparent (c.Answers Set.univ) (Eval.command c) (Eval.command c) m m' := by
  intro hcalm
  obtain ⟨hout, htwin⟩ := c.run_twin h (hcalm (.asked c m) (by simp)).2
  refine ⟨?_, htwin, fun b _ => ?_⟩
  · rw [Eval.run_command, Eval.run_command, hout]
  · cases c <;> first | exact Set.mem_univ _ | trivial | exact fun _ _ _ _ => Set.mem_univ _

theorem catchSignal {Q : Region → α → Prop} (h : Transparent (Q Set.univ) x x' m m') :
    Transparent (SignalSeen Q Set.univ) x.catchSignal x'.catchSignal m m' := by
  refine .turned x.run_catchSignal x'.run_catchSignal (x.trace_catchSignal m) (fun o ho r hr => ?_) h
  cases o with
  | done a =>
    cases hr
    exact ho a rfl
  | thrown s =>
    cases hr
    exact fun _ _ => Set.mem_univ _
  | failed f => cases hr
  | exhausted => cases hr

theorem catchFault {Q : Region → α → Prop} {R : Region} (h : Transparent (Q R) x x' m m') :
    Transparent (FaultSeen Q R) x.catchFault x'.catchFault m m' := by
  refine .turned x.run_catchFault x'.run_catchFault (x.trace_catchFault m) (fun o ho r hr => ?_) h
  cases o with
  | done a =>
    cases hr
    exact ho a rfl
  | thrown s => cases hr
  | failed f =>
    cases hr
    trivial
  | exhausted => cases hr

theorem inFrame {label : Option String} {body body' : FrameId → Eval α} (h : m.Twin m')
    (hbody : m.depth < m.config.maxDepth → ∀ id,
      Transparent Q (body id) (body' id) (m.enter label) (m'.enter label)) :
    Transparent Q (.inFrame label body .done) (.inFrame label body' .done) m m' := by
  intro hcalm
  by_cases hroom : m.config.maxDepth ≤ m.depth
  · simp only [Eval.trace, hroom, if_true] at hcalm
    cases (hcalm _ (List.mem_singleton_self _)).1
  · have hroom' : ¬m'.config.maxDepth ≤ m'.depth := by
      have hle := h.maxDepth_le
      have hdepth := h.depth
      omega
    have hinside : ∀ k ∈ (body m.nextFrame).trace (m.enter label), k.Calm := by
      intro k hk
      refine hcalm k ?_
      simp only [Eval.trace, hroom, if_false]
      simp [hk]
    obtain ⟨hout, htwin, hq⟩ := hbody (Nat.lt_of_not_le hroom) m.nextFrame hinside
    rw [Eval.run_inFrame hroom, Eval.run_inFrame hroom', h.nextFrame, hout]
    refine ⟨rfl, htwin.leave m.nextFrame, fun a ha => hq a ?_⟩
    revert ha
    cases (body m.nextFrame (m.enter label)).1 <;> simp [Outcome.leave]

end Transparent

theorem Machine.room_of_run {α : Type} {nesting : Nat} {x : Eval α} {o : Outcome α} {m n : Machine}
    (h : x m = (o, n)) (hroom : m.config.maxDepth ≤ nesting + m.depth) :
    n.config.maxDepth ≤ nesting + n.depth := by
  have hconfig := (x.trace_connected m).config
  have hstack := x.run_stack m
  rw [h] at hconfig hstack
  rw [hconfig, Machine.depth, hstack]
  exact hroom

theorem Machine.room_enter {nesting : Nat} {m : Machine} {label : Option String}
    (hroom : m.config.maxDepth ≤ nesting + m.depth) :
    (m.enter label).config.maxDepth ≤ nesting + (m.enter label).depth := by
  show m.config.maxDepth ≤ nesting + (m.depth + 1)
  omega

/-- Runs that go the same way, on machines where code may nest `nesting` frames deep. -/
def transparency (nesting : Nat) : Tandem where
  Holds R Q x x' := R = Set.univ → ∀ m m', m.Twin m' → m.config.maxDepth ≤ nesting + m.depth →
    Transparent (Q R) x x' m m'
  ret h := fun _ _ _ hm _ => .ret hm h
  bind hx hf := fun hR m m' hm hroom => (hx hR m m' hm hroom).bind fun a n n' hrun ha hn =>
    hf _ a (fun _ => id) ha hR n n' hn (Machine.room_of_run hrun hroom)
  fail := fun _ _ _ hm _ => .fail hm
  signal _ := fun _ _ _ hm _ => .signal hm
  exhaust := fun _ _ _ hm _ => .exhaust hm
  ask c _ := fun hR _ _ hm _ => hR ▸ .ask c hm
  catchSignal hx := fun hR m m' hm hroom => hR ▸ .catchSignal (hR ▸ hx hR m m' hm hroom)
  catchFault hx := fun hR m m' hm hroom => .catchFault (hx hR m m' hm hroom)
  inFrame h := fun hR _ _ hm hroom => .inFrame hm fun _ id =>
    h id hR _ _ (hm.enter _) (Machine.room_enter hroom)

/-- Evaluations that are not compared at all. -/
def anything : Tandem where
  Holds _ _ _ _ := True
  ret _ := trivial
  bind _ _ := trivial
  fail := trivial
  signal _ := trivial
  exhaust := trivial
  ask _ _ := trivial
  catchSignal _ := trivial
  catchFault _ := trivial
  inFrame _ := trivial

/-- Evaluators that may nest deeper run nested code the same way.  At depth zero no frame can be
entered, so that nothing is nested. -/
theorem stepWithin_transparency (patience : Nat) {nesting nesting' : Nat}
    (h : nesting ≤ nesting') :
    (transparency nesting).Nested ⟨stepWithin patience nesting, patience⟩
      ⟨stepWithin patience nesting', patience⟩ := by
  induction nesting generalizing nesting' with
  | zero =>
    refine Tandem.nested_of_steps anything rfl (fun _ => trivial) fun _ _ m m' hm hroom => ?_
    refine .inFrame hm fun hlt => ?_
    omega
  | succ nesting ih =>
    cases nesting' with
    | zero => exact absurd h (Nat.not_succ_le_zero _)
    | succ nesting' =>
      have N := ih (Nat.le_of_succ_le_succ h)
      refine Tandem.nested_of_steps (transparency nesting) rfl (fun hf => Tandem.evalStep N hf)
        fun hbody hR m m' hm hroom => .inFrame hm fun _ id => hbody id hR _ _ (hm.enter _) ?_
      show m.config.maxDepth ≤ nesting + (m.depth + 1)
      omega

/-! ### Sessions -/

structure Session.Twin (s t : Session) : Prop where
  lib : t.lib = s.lib
  user : t.user = s.user
  machine : s.machine.Twin t.machine

/-- What a host gets to see of a request. -/
inductive HostAnswer where
  | result (r : HostResult)
  | dialect (r : Except HostError DialectOutcome)
  | printed (s : String)
  | polled (ticks : List Nat)
  | none

def HostRequest.answer (s : Session) : HostRequest → HostAnswer
  | text source => .result (s.evalText source).1
  | units us => .result (s.evalUnits us).1
  | items is => .result (s.evalItems is).1
  | dialect source => .dialect (s.evalDialect source).1
  | takePrinted => .printed s.takePrinted.1
  | takePolled => .polled s.takePolled.1
  | _ => .none

namespace Session.Twin

variable {s t : Session} {units : List Value} (h : s.Twin t)
include h

theorem runUnits
    (hcalm : ∀ k ∈ (s.evaluator.runUnits units s.user).trace s.machine, k.Calm) :
    (t.evaluator.runUnits units t.user t.machine).1 =
        (s.evaluator.runUnits units s.user s.machine).1 ∧
      (s.evaluator.runUnits units s.user s.machine).2.Twin
        (t.evaluator.runUnits units t.user t.machine).2 := by
  have hnesting : s.machine.config.maxDepth + 1 ≤ t.machine.config.maxDepth + 1 :=
    Nat.succ_le_succ h.machine.maxDepth_le
  have N := stepWithin_transparency defaultPatience hnesting
  have hscope : Handle.scope s.user ∈ (Set.univ : Region) := Set.mem_univ _
  have hunits : Value.AllWithin Set.univ units := fun _ _ _ _ => Set.mem_univ _
  have hrun := N.runUnits hscope hunits
  have hroom : s.machine.config.maxDepth ≤ s.machine.config.maxDepth + 1 + s.machine.depth := by
    omega
  obtain ⟨hout, htwin, -⟩ := hrun rfl _ _ h.machine hroom hcalm
  rw [h.user]
  exact ⟨hout, htwin⟩

theorem evalUnits
    (hcalm : ∀ k ∈ (s.evaluator.runUnits units s.user).trace s.machine, k.Calm) :
    (t.evalUnits units).1 = (s.evalUnits units).1 ∧
      (s.evalUnits units).2.Twin (t.evalUnits units).2 := by
  obtain ⟨hout, htwin⟩ := h.runUnits hcalm
  simp only [Session.evalUnits, run_eq]
  rcases hs : s.evaluator.runUnits units s.user s.machine with ⟨_ | _ | _ | _, m⟩ <;>
    rcases ht : t.evaluator.runUnits units t.user t.machine with ⟨_, m'⟩ <;>
    rw [hs, ht] at hout htwin <;> cases hout
  · exact ⟨rfl, h.lib, h.user, htwin.note _ _⟩
  · exact ⟨rfl, h.lib, h.user, htwin.note _ _⟩
  · exact ⟨rfl, h.lib, h.user, htwin⟩
  · exact ⟨rfl, h.lib, h.user, htwin⟩

theorem evalDialect {source : String} (hscan : Source.scan source = .ok units)
    (hcalm : ∀ k ∈ (s.evaluator.runUnits units s.user).trace s.machine, k.Calm) :
    (t.evalDialect source).1 = (s.evalDialect source).1 ∧
      (s.evalDialect source).2.Twin (t.evalDialect source).2 := by
  obtain ⟨hout, htwin⟩ := h.runUnits hcalm
  simp only [Session.evalDialect, hscan, run_eq]
  rcases hs : s.evaluator.runUnits units s.user s.machine with ⟨_ | signal | _ | _, m⟩ <;>
    rcases ht : t.evaluator.runUnits units t.user t.machine with ⟨_, m'⟩ <;>
    rw [hs, ht] at hout htwin <;> cases hout
  · exact ⟨rfl, h.lib, h.user, htwin⟩
  · dsimp only
    split
    · split
      · exact ⟨rfl, h.lib, h.user, htwin⟩
      · split
        · exact ⟨rfl, h.lib, h.user, htwin⟩
        · exact ⟨rfl, h.lib, h.user, htwin⟩
    · exact ⟨rfl, h.lib, h.user, htwin⟩
  · exact ⟨rfl, h.lib, h.user, htwin⟩
  · exact ⟨rfl, h.lib, h.user, htwin⟩

theorem serve {r : HostRequest} (hcalm : ∀ k ∈ r.moments s, k.Calm)
    (hhook : (r.serve s).machine.hook = none) (hinterrupt : (r.serve s).machine.interrupt = false) :
    r.answer t = r.answer s ∧ (r.serve s).Twin (r.serve t) := by
  obtain ⟨⟨config, countdown, listening, journal, hm⟩, hdepth, -, -⟩ := h.machine
  cases r with
  | text source =>
    simp only [HostRequest.answer, HostRequest.serve]
    cases hscan : Source.scan source with
    | error e => simp only [evalText, hscan, h, and_self]
    | ok units =>
      rw [HostRequest.moments_of_code (r := .text source) (except_toOption_eq_some.2 hscan)] at hcalm
      obtain ⟨hout, htwin⟩ := h.evalUnits hcalm
      rw [s.evalText_of_scan hscan, t.evalText_of_scan hscan, hout]
      exact ⟨rfl, htwin⟩
  | units us =>
    obtain ⟨hout, htwin⟩ := h.evalUnits hcalm
    exact ⟨congrArg _ hout, htwin⟩
  | items is =>
    simp only [HostRequest.answer, HostRequest.serve]
    cases hscan : Feed.unitsOfItems is with
    | error e => simp only [evalItems, hscan, h, and_self]
    | ok units =>
      rw [HostRequest.moments_of_code (r := .items is) (except_toOption_eq_some.2 hscan)] at hcalm
      obtain ⟨hout, htwin⟩ := h.evalUnits hcalm
      rw [s.evalItems_of_units hscan, t.evalItems_of_units hscan, hout]
      exact ⟨rfl, htwin⟩
  | dialect source =>
    simp only [HostRequest.answer, HostRequest.serve]
    cases hscan : Source.scan source with
    | error e => simp only [Session.evalDialect, hscan, h, and_self]
    | ok units =>
      rw [HostRequest.moments_of_code (r := .dialect source) (except_toOption_eq_some.2 hscan)] at hcalm
      obtain ⟨hout, htwin⟩ := h.evalDialect hscan hcalm
      rw [hout]
      exact ⟨rfl, htwin⟩
  | set name v =>
    refine ⟨rfl, h.lib, h.user, ?_⟩
    simp only [HostRequest.serve, Session.set, h.user]
    exact h.machine.define s.user name v
  | setInterrupt b =>
    refine ⟨rfl, h.lib, h.user, ⟨config, countdown, listening, journal, ?_⟩, hdepth, hhook, hinterrupt⟩
    simp only [HostRequest.serve, Session.setInterrupt, hm]
  | setHook hook => cases hhook
  | takePrinted =>
    refine ⟨?_, h.lib, h.user, ⟨config, countdown, listening, journal, ?_⟩, hdepth, hhook, hinterrupt⟩
    · simp only [HostRequest.answer, Session.takePrinted, hm]
    · simp only [HostRequest.serve, Session.takePrinted, hm]
  | takePolled =>
    refine ⟨?_, h.lib, h.user, ⟨config, countdown, listening, journal, ?_⟩, hdepth, hhook, hinterrupt⟩
    · simp only [HostRequest.answer, Session.takePolled, hm]
    · simp only [HostRequest.serve, Session.takePolled, hm]

end Session.Twin

/-! ### Fresh sessions -/

/-- An evaluation that goes the same way on twins in any case. -/
def Eval.Quiet {α : Type} (x : Eval α) : Prop :=
  ∀ m m', m.Twin m' → (x m').1 = (x m).1 ∧ (x m).2.Twin (x m').2

namespace Eval.Quiet

variable {α β : Type}

theorem pure (a : α) : (pure a : Eval α).Quiet := fun _ _ h => ⟨rfl, h⟩

theorem fail (f : Fault) : (fail f : Eval α).Quiet := fun _ _ h => ⟨rfl, h⟩

theorem command {c : Command β} (hc : ∀ m, (c.run m).2.interrupt = m.interrupt) :
    (command c).Quiet := by
  intro m m' h
  obtain ⟨hout, htwin⟩ := c.run_twin h ((hc m).trans h.interrupt)
  exact ⟨congrArg Outcome.done hout, htwin⟩

theorem bind {x : Eval α} {f : α → Eval β} (hx : x.Quiet) (hf : ∀ a, (f a).Quiet) :
    (x >>= f).Quiet := by
  intro m m' h
  obtain ⟨hout, htwin⟩ := hx m m' h
  rw [run_bind, run_bind]
  rcases hrun : x m with ⟨a | _ | _ | _, n⟩ <;> rcases hrun' : x m' with ⟨_, n'⟩ <;>
    rw [hrun, hrun'] at hout htwin <;> cases hout
  · exact hf a n n' htwin
  all_goals exact ⟨rfl, htwin⟩

theorem ofExcept (r : Except Fault α) : (ofExcept r).Quiet := by
  cases r with
  | error f => exact fail f
  | ok a => exact pure a

theorem forM {items : List α} {f : α → Eval Unit} (hf : ∀ a, (f a).Quiet) :
    (items.forM f).Quiet := by
  induction items with
  | nil => exact pure ()
  | cons a rest ih => exact (hf a).bind fun _ => ih

theorem define (s : ScopeId) (name : String) (v : Value) : (Eval.define s name v).Quiet :=
  command fun _ => rfl

theorem freshIdentity : Eval.freshIdentity.Quiet := command fun _ => rfl

theorem newScope (parent : Option ScopeId) : (Eval.newScope parent).Quiet := command fun _ => rfl

theorem note (e : Event) : (Eval.note e).Quiet := by
  refine command fun m => ?_
  obtain ⟨_, hm⟩ := m.note_eq e
  rw [Command.run, hm]

theorem prepare (r : Registry) : (Session.prepare r).Quiet := by
  refine (newScope none).bind fun lib => ?_
  refine Quiet.bind (.bind ?_ fun _ => .bind ?_ fun _ => .bind ?_ fun _ => note _) fun _ =>
    (newScope _).bind fun _ => pure _
  · refine (define _ _ _).bind fun _ => (define _ _ _).bind fun _ => (define _ _ _).bind fun _ => ?_
    exact forM fun _ => define _ _ _
  · refine forM fun n => freshIdentity.bind fun _ => (ofExcept _).bind fun _ => ?_
    exact freshIdentity.bind fun _ => define _ _ _
  · refine forM fun o => (command fun _ => rfl).bind fun v? => ?_
    split
    · exact (ofExcept _).bind fun _ => freshIdentity.bind fun _ => define _ _ _
    · exact fail _

end Eval.Quiet

theorem Session.withRegistry_twin {c c' : Config} {r : Registry} {listening listening' : Bool}
    {s t : Session} (hdepth : c.maxDepth ≤ c'.maxDepth)
    (hs : Session.withRegistry c r listening = .ok s)
    (ht : Session.withRegistry c' r listening' = .ok t) : s.Twin t := by
  have hnew : Machine.Twin { Machine.new c with listening }
      { Machine.new c' with listening := listening' } :=
    ⟨⟨_, _, _, _, rfl⟩, hdepth, rfl, rfl⟩
  obtain ⟨hout, htwin⟩ := Eval.Quiet.prepare r _ _ hnew
  unfold Session.withRegistry at hs ht
  split at hs
  · rename_i hp
    split at ht
    · rename_i hp'
      rw [hp, hp'] at hout htwin
      cases hs
      cases ht
      cases hout
      exact ⟨rfl, rfl, htwin.note _ _⟩
    all_goals cases ht
  all_goals cases hs

/-! ### Limits -/

/-- The numbers of the frames that are entered follow from how many there are. -/
theorem HostRequest.entered_eq {s t : Session} {r : HostRequest} (h : s.Twin t)
    (hserve : (r.serve s).Twin (r.serve t)) :
    (r.moments t).filterMap Moment.entered? = (r.moments s).filterMap Moment.entered? := by
  cases hcode : r.code? with
  | none => rw [moments_idle hcode, moments_idle hcode]
  | some units =>
    have hids : ∀ s : Session,
        (r.serve s).machine.nextFrame =
            s.machine.nextFrame + ((r.moments s).filterMap Moment.entered?).length ∧
          (r.moments s).filterMap Moment.entered? = List.range' s.machine.nextFrame
            ((r.moments s).filterMap Moment.entered?).length := by
      intro s
      obtain ⟨journal, hm⟩ := serve_machine s hcode
      rw [hm, moments_of_code hcode]
      exact (Eval.trace_connected _ s.machine).entered
    obtain ⟨hs, hsids⟩ := hids s
    obtain ⟨ht, htids⟩ := hids t
    have hstart := h.machine.nextFrame
    rw [hserve.machine.nextFrame, hs, hstart] at ht
    rw [htids, hsids, Nat.add_left_cancel ht, hstart]

/-- Limits decide nothing in a run in which no frame is refused and no stop is requested: sessions
that differ in them give the same answer, and then have the same bindings, the same tick and the
same numbers of frames. -/
theorem HostRequest.limits_transparent {s t : Session} (r : HostRequest) (h : s.Twin t)
    (hcalm : ∀ k ∈ r.moments s, k.Calm) (hhook : (r.serve s).machine.hook = none)
    (hinterrupt : (r.serve s).machine.interrupt = false) :
    r.answer t = r.answer s ∧
      (r.serve t).machine.scopes = (r.serve s).machine.scopes ∧
      (r.serve t).machine.tick = (r.serve s).machine.tick ∧
      (r.moments t).filterMap Moment.entered? = (r.moments s).filterMap Moment.entered? ∧
      (r.serve s).Twin (r.serve t) := by
  obtain ⟨hanswer, hserve⟩ := h.serve hcalm hhook hinterrupt
  exact ⟨hanswer, hserve.machine.scopes, hserve.machine.tick, entered_eq h hserve, hserve⟩

/-- The word `y` is unbound, and its fault is trapped; five frames are just enough. -/
def trapping : HostRequest := .text "x: (trap [y]) x"

def trappingRegistry : Registry where
  natives := Registry.standard.natives.filter fun n => n.name == "trap"

/-- Whether a request is served calmly. -/
def HostRequest.isCalm (s : Session) (r : HostRequest) : Bool :=
  (r.moments s).all (fun k => decide k.Calm) && (r.serve s).machine.hook.isNone &&
    !(r.serve s).machine.interrupt

theorem trapping_calm :
    (match Session.withRegistry { maxDepth := 5, pollInterval := 1 } trappingRegistry false,
        Session.withRegistry { pollInterval := 7, traceSteps := true } trappingRegistry true with
      | .ok s, .ok _ => trapping.isCalm s
      | _, _ => false) = true := by
  decide +kernel

/-- The second session may go deeper, looks for a stop less often and notes every state. -/
theorem HostRequest.limits_transparent_trapping : ∃ s t : Session,
    Session.withRegistry { maxDepth := 5, pollInterval := 1 } trappingRegistry false = .ok s ∧
      Session.withRegistry { pollInterval := 7, traceSteps := true } trappingRegistry true = .ok t ∧
      trapping.answer t = trapping.answer s ∧ (trapping.serve s).Twin (trapping.serve t) := by
  have hcalm := trapping_calm
  split at hcalm
  · rename_i s t hs ht
    simp only [isCalm, Bool.and_eq_true, List.all_eq_true, decide_eq_true_eq,
      Option.isNone_iff_eq_none, Bool.not_eq_true'] at hcalm
    obtain ⟨⟨hcalm, hhook⟩, hinterrupt⟩ := hcalm
    have htwin := Session.withRegistry_twin (by decide) hs ht
    obtain ⟨hanswer, -, -, -, hserve⟩ :=
      trapping.limits_transparent htwin hcalm hhook hinterrupt
    exact ⟨s, t, hs, ht, hanswer, hserve⟩
  · cases hcalm

end Homoicon
