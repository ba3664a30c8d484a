import Homoicon.Proofs.Nested
import Homoicon.Proofs.Operands
import Homoicon.Proofs.Scanned
import Homoicon.Session

/-!
# The life of a session

A session begins with the standard library and lives through the requests of its host.  All the
moments of its evaluations, in order, are its history.  Over the whole history the stack is as the
host found it between requests, never more frames are live than may be, no two frames share a
number, and a stack overflows only where a frame was refused.
-/

namespace Homoicon

variable {F : Facts}

/-! ### Installing a registry -/

/-- An operation is granted, with the parameters that its spec gives it. -/
def Facts.Installs (F : Facts) (n : Native) : Prop :=
  F.native n ∧ ∀ items spec, Source.scan n.spec = .ok items → Spec.read items = .ok spec →
    F.called n spec.params

namespace Logic

variable {L : Logic F} {cur : Place}

theorem forM {α : Type} {items : List α} {f : α → Eval Unit}
    (h : ∀ a ∈ items, L.Holds cur (fun _ => True) (f a)) :
    L.Holds cur (fun _ => True) (items.forM f) := by
  induction items with
  | nil => exact L.ret trivial
  | cons a rest ih =>
    obtain ⟨ha, hrest⟩ := List.forall_mem_cons.1 h
    exact L.bind ha fun _ _ => ih hrest

theorem nativeAction {n : Native} {signature : Identity} (h : F.Installs n) :
    F.Caught (Action.Good F) (n.action signature) := by
  obtain ⟨hn, hcalled⟩ := h
  unfold Native.action
  split
  · exact F.fault_of (by simp)
  · rename_i items hitems
    cases hspec : Spec.read items with
    | error e =>
      have hread : F.Caught (fun _ => True) (Spec.read items) := Spec.read_caught
      rw [hspec] at hread
      exact hread
    | ok spec =>
      have hgood : Action.Good F
          { label := some n.name, params := spec.params, signature, dispatcher := .native n
            exemplar := none, enfixed := false, deferral := .none,
            description := spec.description } := by
        refine ⟨hn, trivial, ?_⟩
        rintro _ ⟨⟩
        exact hcalled items spec hitems hspec
      cases n.enfix with
      | some deferral => exact hgood.enfixWith_caught
      | none => exact hgood

theorem defineNative {n : Native} {scope : ScopeId} (h : F.Installs n) :
    L.Holds cur (fun _ => True) (n.defineIn scope) :=
  L.bind L.freshIdentity fun _ _ => L.bind (L.ofExcept (nativeAction h)) fun _ ha =>
    L.bind L.freshIdentity fun _ _ => L.define ha

theorem defineOperator {scope : ScopeId} {o : Operator} :
    L.Holds cur (fun _ => True) (Registry.defineOperator scope o) := by
  refine L.bind L.lookup fun v? hv => ?_
  split
  · rename_i a
    have ha : a.Good F := hv
    refine L.bind (L.ofExcept ha.enfixWith_caught) fun b hb => L.bind L.freshIdentity fun _ _ => ?_
    exact L.define (hb.congr rfl rfl rfl)
  · exact L.failWith (by simp)

theorem defineConstants {scope : ScopeId} :
    L.Holds cur (fun _ => True) (Registry.defineConstants scope) := by
  refine L.bind (L.define trivial) fun _ _ => L.bind (L.define trivial) fun _ _ => ?_
  exact L.bind (L.define trivial) fun _ _ => L.forM fun _ _ => L.define trivial

theorem install {r : Registry} {scope : ScopeId} (h : ∀ n ∈ r.natives, F.Installs n) :
    L.Holds cur (fun _ => True) (r.install scope) :=
  L.bind L.defineConstants fun _ _ =>
    L.bind (L.forM fun n hn => L.defineNative (h n hn)) fun _ _ =>
      L.bind (L.forM fun _ _ => L.defineOperator) fun _ _ => L.note

theorem prepare {r : Registry} (h : ∀ n ∈ r.natives, F.Installs n) :
    L.Holds cur (fun _ => True) (Session.prepare r) :=
  L.bind L.newScope fun _ _ => L.bind (L.install h) fun _ _ =>
    L.bind L.newScope fun _ _ => L.ret trivial

end Logic

/-! ### Overflows -/

/-- What values can hold after a history: the standard operations, and the overflow of a stack of
`maxDepth` frames, if a frame was refused. -/
def Facts.after (maxDepth : Nat) (t : List Moment) : Facts where
  native n := n ∈ Registry.standard.natives
  overflow n := n = maxDepth ∧ ∃ m, Moment.refused m ∈ t

theorem Facts.after_le (maxDepth : Nat) (t u : List Moment) :
    (Facts.after maxDepth t).Le (Facts.after maxDepth (t ++ u)) := by
  refine { native := fun n h => h, overflow := fun n h => ?_ }
  obtain ⟨hn, m, hm⟩ := h
  exact ⟨hn, m, List.mem_append_left u hm⟩

def Explained (maxDepth : Nat) (t : List Moment) : Prop :=
  ∀ before f m rest, t = before ++ .faulted f m :: rest → (Facts.after maxDepth before).fault f

theorem Explained.append {maxDepth : Nat} {t u : List Moment} (h : Explained maxDepth t)
    (hu : ∀ before f m rest, u = before ++ .faulted f m :: rest →
      (Facts.after maxDepth (t ++ before)).fault f) : Explained maxDepth (t ++ u) := by
  intro before f m rest heq
  rcases List.append_eq_append_iff.1 heq with ⟨v, rfl, hv⟩ | ⟨v, rfl, hv⟩
  · exact hu v f m rest hv
  · cases v with
    | nil => simpa using hu [] f m rest hv.symm
    | cons k v =>
      obtain ⟨rfl, -⟩ := List.cons.inj hv
      exact h before f m v rfl

/-- A run that ends well under every lenient guard that grants all that is granted so far. -/
def Facts.Safe {α : Type} (F : Facts) (maxDepth : Nat) (x : Eval α) (m : Machine) : Prop :=
  ∀ {F' : Facts} (G : Guard F'), G.Lenient → F.Le F' → G.maxDepth = maxDepth →
    G.Fits (maxDepth + 1) m → ∃ Q, G.At Q x m

theorem Guard.whileTrue_of_patient (n : Native) (_ : n.operation = .control .whileTrue) :
    (∀ (_ : CallState) (_ : Machine), False) ∨ True :=
  .inr trivial

/-- The guard that lets a stack of `maxDepth` frames overflow. -/
def Guard.overflowing (maxDepth : Nat) :
    Guard { native := fun n => n ∈ Registry.standard.natives, overflow := fun n => n = maxDepth } where
  stop _ := False
  patient := True
  maxDepth := maxDepth
  refused _ _ := .inr rfl
  whileTrue := Guard.whileTrue_of_patient
  host _ _ _ _ := trivial

def Guard.untilRefused (maxDepth : Nat) (t : List Moment) : Guard (Facts.after maxDepth t) where
  stop k := ∃ m, k = .refused m
  patient := True
  maxDepth := maxDepth
  refused m _ := .inl ⟨m, rfl⟩
  whileTrue _ _ := .inr trivial
  host _ _ _ _ := trivial

theorem Facts.after_le_overflowing (maxDepth : Nat) (t : List Moment) :
    (Facts.after maxDepth t).Le
      { native := fun n => n ∈ Registry.standard.natives, overflow := fun n => n = maxDepth } where
  native _ h := h
  overflow _ h := h.1

theorem Guard.Clean.fine {G : Guard F} {t : List Moment} {k : Moment} {rest : List Moment}
    (h : G.Clean (t ++ k :: rest)) (ht : G.Unstopped t) : G.Fine k := by
  induction t with
  | nil => exact h.1
  | cons k' t ih =>
    obtain ⟨hk', ht⟩ := List.forall_mem_cons.1 ht
    exact ih (h.2.resolve_left hk') ht

/-! ### What a history keeps -/

/-- What holds of a history and of the machine between two requests. -/
structure Sound (c : Config) (t : List Moment) (m : Machine) : Prop where
  stack : m.stack = []
  config : m.config = c
  good : m.Good (Facts.after c.maxDepth t)
  nextFrame : m.nextFrame = 1 + (t.filterMap Moment.entered?).length
  entered : t.filterMap Moment.entered? = List.range' 1 (t.filterMap Moment.entered?).length
  possible : ∀ k ∈ t, k.Possible
  depth_le : ∀ k ∈ t, k.before.config = c ∧ k.before.depth ≤ c.maxDepth ∧ k.after.depth ≤ c.maxDepth
  explained : Explained c.maxDepth t

namespace Sound

variable {c : Config} {t : List Moment} {m : Machine} {α : Type} {x : Eval α}

theorem depth (h : Sound c t m) : m.depth = 0 := by rw [Machine.depth, h.stack, List.length_nil]

theorem fits (h : Sound c t m) {F' : Facts} {G : Guard F'} (hle : (Facts.after c.maxDepth t).Le F')
    (hG : G.maxDepth = c.maxDepth) : G.Fits (c.maxDepth + 1) m := by
  have hdepth := h.depth
  refine ⟨h.good.mono hle, by rw [h.config, hG], ?_, ?_⟩
  · omega
  · omega

theorem overflowing (h : Sound c t m) (hx : (Facts.after c.maxDepth t).Safe c.maxDepth x m) :
    ∃ Q, (Guard.overflowing c.maxDepth).At Q x m :=
  have hle := Facts.after_le_overflowing c.maxDepth t
  hx (Guard.overflowing c.maxDepth) (fun _ _ => trivial) hle rfl (h.fits hle rfl)

theorem untilRefused (h : Sound c t m) (hx : (Facts.after c.maxDepth t).Safe c.maxDepth x m) :
    ∃ Q, (Guard.untilRefused c.maxDepth t).At Q x m :=
  have hle : (Facts.after c.maxDepth t).Le (Facts.after c.maxDepth t) :=
    { native := fun _ hn => hn, overflow := fun _ hn => hn }
  hx (Guard.untilRefused c.maxDepth t) (fun _ _ => trivial) hle rfl (h.fits hle rfl)

theorem run_good (h : Sound c t m) (hx : (Facts.after c.maxDepth t).Safe c.maxDepth x m) :
    (x m).2.Good (Facts.after c.maxDepth (t ++ x.trace m)) := by
  by_cases href : ∃ m', Moment.refused m' ∈ x.trace m
  · obtain ⟨m', hm'⟩ := href
    obtain ⟨Q, -, hpost⟩ := h.overflowing hx
    refine (hpost fun _ _ hk => hk).2.mono
      { native := fun _ hn => hn, overflow := fun n hn => ⟨hn, m', ?_⟩ }
    exact List.mem_append_right t hm'
  · obtain ⟨Q, -, hpost⟩ := h.untilRefused hx
    refine (hpost ?_).2.mono (Facts.after_le _ _ _)
    rintro k hk ⟨m', rfl⟩
    exact href ⟨m', hk⟩

theorem run_explained (h : Sound c t m) (hx : (Facts.after c.maxDepth t).Safe c.maxDepth x m) :
    Explained c.maxDepth (t ++ x.trace m) := by
  refine h.explained.append fun before f m' rest hu n hn => ?_
  by_cases href : ∃ m', Moment.refused m' ∈ before
  · obtain ⟨m', hm'⟩ := href
    obtain ⟨Q, hclean, -⟩ := h.overflowing hx
    rw [hu] at hclean
    exact ⟨hclean.fine (fun _ _ hk => hk) n hn, m', List.mem_append_right t hm'⟩
  · -- no refusal yet, so the overflow was granted before the run
    obtain ⟨Q, hclean, -⟩ := h.untilRefused hx
    rw [hu] at hclean
    have hfine := hclean.fine (by
      rintro k hk ⟨m', rfl⟩
      exact href ⟨m', hk⟩)
    exact (Facts.after_le c.maxDepth t before).overflow n (hfine n hn)

theorem run (h : Sound c t m) (hx : (Facts.after c.maxDepth t).Safe c.maxDepth x m) :
    Sound c (t ++ x.trace m) (x m).2 := by
  have hconn := x.trace_connected m
  have hdepth := h.depth
  obtain ⟨hnext, hids⟩ := hconn.entered
  rw [h.nextFrame] at hnext hids
  refine ⟨?_, ?_, h.run_good hx, ?_, ?_, ?_, ?_, h.run_explained hx⟩
  · rw [x.run_stack, h.stack]
  · rw [hconn.config, h.config]
  · rw [hnext, List.filterMap_append, List.length_append, Nat.add_assoc]
  · rw [List.filterMap_append, List.length_append, ← List.range'_append_1, ← h.entered, ← hids]
  · exact List.forall_mem_append.2 ⟨h.possible, hconn.possible⟩
  · refine List.forall_mem_append.2 ⟨h.depth_le, ?_⟩
    have hle := hconn.depth_le (by omega)
    rwa [h.config] at hle

/-- What a host does to a machine by itself is no part of the history. -/
theorem change {m' : Machine} (h : Sound c t m) (hs : m'.stack = m.stack)
    (hc : m'.config = m.config) (hn : m'.nextFrame = m.nextFrame)
    (hg : m'.Good (Facts.after c.maxDepth t)) : Sound c t m' :=
  ⟨hs.trans h.stack, hc.trans h.config, hg, hn.trans h.nextFrame, h.entered, h.possible, h.depth_le,
    h.explained⟩

theorem note (h : Sound c t m) (e : Event) : Sound c t (m.note e) :=
  h.change (m.note_stack e) (m.note_config e) (m.note_nextFrame e) (h.good.note e)

end Sound

/-! ### Running code in a session -/

namespace Session

variable (s : Session) {source : String} {units : List Value}

theorem run_eq {α : Type} (x : Eval α) :
    s.run x = ((x s.machine).1, { s with machine := (x s.machine).2 }) := rfl

theorem evalText_of_scan (h : Source.scan source = .ok units) :
    s.evalText source = s.evalUnits units := by
  simp only [evalText, h]

theorem evalItems_of_units {items : List FeedItem} (h : Feed.unitsOfItems items = .ok units) :
    s.evalItems items = s.evalUnits units := by
  simp only [evalItems, h]

theorem evalUnits_machine (units : List Value) :
    ∃ journal, (s.evalUnits units).2.machine =
      { (s.evaluator.runUnits units s.user s.machine).2 with journal } := by
  simp only [evalUnits, run_eq]
  rcases s.evaluator.runUnits units s.user s.machine with ⟨_ | _ | _ | _, m⟩
  · exact m.note_eq _
  · exact m.note_eq _
  · exact ⟨m.journal, rfl⟩
  · exact ⟨m.journal, rfl⟩

theorem evalDialect_machine (h : Source.scan source = .ok units) :
    (s.evalDialect source).2.machine = (s.evaluator.runUnits units s.user s.machine).2 := by
  simp only [evalDialect, h, run_eq]
  rcases s.evaluator.runUnits units s.user s.machine with ⟨_ | signal | _ | _, m⟩
  · rfl
  · dsimp only
    split
    · split
      · rfl
      · split <;> rfl
    · rfl
  · rfl
  · rfl

theorem withRegistry_eq_ok {c : Config} {r : Registry} {listening : Bool} {s : Session}
    (h : Session.withRegistry c r listening = .ok s) :
    ∃ e, s.machine = (Session.prepare r { Machine.new c with listening }).2.note e := by
  unfold Session.withRegistry at h
  split at h
  · rename_i hp
    cases h
    rw [hp]
    exact ⟨_, rfl⟩
  all_goals cases h

end Session

/-! ### Requests -/

inductive HostRequest where
  | text (source : String)
  | units (units : List Value)
  | items (items : List FeedItem)
  | dialect (source : String)
  | set (name : String) (v : Value)
  | setInterrupt (b : Bool)
  | setHook (hook : Nat → Bool)
  | takePrinted
  | takePolled

def FeedItem.value? : FeedItem → Option Value
  | .code v | .spliced v => some v
  | .text _ => none

namespace HostRequest

def serve (s : Session) : HostRequest → Session
  | text source => (s.evalText source).2
  | units us => (s.evalUnits us).2
  | items is => (s.evalItems is).2
  | dialect source => (s.evalDialect source).2
  | set name v => s.set name v
  | setInterrupt b => s.setInterrupt b
  | setHook hook => s.setHook hook
  | takePrinted => s.takePrinted.2
  | takePolled => s.takePolled.2

def code? : HostRequest → Option (List Value)
  | text source | dialect source => (Source.scan source).toOption
  | units us => some us
  | items is => (Feed.unitsOfItems is).toOption
  | _ => none

def moments (s : Session) (r : HostRequest) : List Moment :=
  match r.code? with
  | some code => (s.evaluator.runUnits code s.user).trace s.machine
  | none => []

def Good (F : Facts) : HostRequest → Prop
  | units us => Value.GoodAll F us
  | items is => Value.GoodAll F (is.filterMap FeedItem.value?)
  | set _ v => v.Good F
  | _ => True

theorem moments_of_code {s : Session} {r : HostRequest} {units : List Value}
    (h : r.code? = some units) :
    r.moments s = (s.evaluator.runUnits units s.user).trace s.machine := by
  rw [moments, h]

theorem moments_idle {s : Session} {r : HostRequest} (h : r.code? = none) : r.moments s = [] := by
  rw [moments, h]

theorem unitsOfItems_good {items : List FeedItem} {units : List Value}
    (h : Value.GoodAll F (items.filterMap FeedItem.value?))
    (hu : Feed.unitsOfItems items = .ok units) : Value.GoodAll F units := by
  induction items generalizing units with
  | nil =>
    cases hu
    trivial
  | cons item rest ih =>
    obtain ⟨here, hhere, hu⟩ := except_bind_eq_ok.1 hu
    obtain ⟨others, hothers, hu⟩ := except_bind_eq_ok.1 hu
    cases hu
    cases item with
    | code v =>
      cases hhere
      exact ⟨h.1, ih h.2 hothers⟩
    | spliced v =>
      cases hhere
      exact ⟨h.1.quotedIfNeeded, ih h.2 hothers⟩
    | text s => exact (Source.scan_good hhere).append (ih h hothers)

theorem Good.code {r : HostRequest} {units : List Value} (h : r.Good F)
    (hc : r.code? = some units) : Value.GoodAll F units := by
  cases r with
  | text source | dialect source =>
    exact Source.scan_good (except_toOption_eq_some.1 hc)
  | units us =>
    cases hc
    exact h
  | items is =>
    exact unitsOfItems_good h (except_toOption_eq_some.1 hc)
  | _ => cases hc

theorem serve_machine (s : Session) {r : HostRequest} {units : List Value}
    (h : r.code? = some units) :
    ∃ journal, (r.serve s).machine =
      { (s.evaluator.runUnits units s.user s.machine).2 with journal } := by
  cases r with
  | text source =>
    rw [serve, s.evalText_of_scan (except_toOption_eq_some.1 h)]
    exact s.evalUnits_machine units
  | dialect source =>
    have hm := s.evalDialect_machine (except_toOption_eq_some.1 h)
    generalize (s.evaluator.runUnits units s.user s.machine).2 = m at hm
    exact ⟨m.journal, hm⟩
  | units us =>
    cases h
    exact s.evalUnits_machine units
  | items is =>
    rw [serve, s.evalItems_of_units (except_toOption_eq_some.1 h)]
    exact s.evalUnits_machine units
  | _ => cases h

theorem serve_idle (s : Session) {r : HostRequest} (h : r.code? = none) :
    (r.serve s).machine.stack = s.machine.stack ∧ (r.serve s).machine.config = s.machine.config ∧
      (r.serve s).machine.nextFrame = s.machine.nextFrame ∧
      ∀ {F : Facts}, s.machine.Good F → r.Good F → (r.serve s).machine.Good F := by
  cases r with
  | text source =>
    simp only [serve, Session.evalText]
    split
    · rename_i hs
      simp [code?, hs, Except.toOption] at h
    · exact ⟨rfl, rfl, rfl, fun hm _ => hm⟩
  | dialect source =>
    simp only [serve, Session.evalDialect]
    split
    · exact ⟨rfl, rfl, rfl, fun hm _ => hm⟩
    · rename_i hs
      simp [code?, hs, Except.toOption] at h
  | items is =>
    simp only [serve, Session.evalItems]
    split
    · rename_i hs
      simp [code?, hs, Except.toOption] at h
    · exact ⟨rfl, rfl, rfl, fun hm _ => hm⟩
  | units us => cases h
  | set name v => exact ⟨rfl, rfl, rfl, fun hm hv => hm.define s.user name hv⟩
  | _ => exact ⟨rfl, rfl, rfl, fun hm _ => ⟨hm.scopes, hm.feeds, hm.snapshots⟩⟩

theorem serve_stack (s : Session) (r : HostRequest) :
    (r.serve s).machine.stack = s.machine.stack := by
  cases h : r.code? with
  | none => exact (serve_idle s h).1
  | some units =>
    obtain ⟨journal, hm⟩ := serve_machine s h
    rw [hm]
    exact (s.evaluator.runUnits units s.user).run_stack s.machine

end HostRequest

/-! ### Lives -/

/-- The lives of sessions with the standard library: the history so far, and the session. -/
inductive Lived (c : Config) : List Moment → Session → Prop
  | start {listening : Bool} {s : Session}
    (h : Session.withRegistry c .standard listening = .ok s) :
    Lived c ((Session.prepare .standard).trace { Machine.new c with listening }) s
  /-- A host brings no values but such as the session can hold by then. -/
  | serve {t : List Moment} {s : Session} (r : HostRequest) (h : Lived c t s)
    (hr : r.Good (Facts.after c.maxDepth t)) : Lived c (t ++ r.moments s) (r.serve s)

namespace Sound

variable {c : Config} {t : List Moment} {s : Session}

theorem new (c : Config) (listening : Bool) : Sound c [] { Machine.new c with listening } where
  stack := rfl
  config := rfl
  good := ⟨fun s hs => by simp [Machine.new] at hs, fun f hf => by simp [Machine.new] at hf,
    fun s hs => by simp [Machine.new] at hs⟩
  nextFrame := rfl
  entered := rfl
  possible := by simp
  depth_le := by simp
  explained := by
    intro before f m rest h
    simp at h

theorem prepare_safe (c : Config) (m : Machine) :
    (Facts.after c.maxDepth []).Safe c.maxDepth (Session.prepare .standard) m :=
  fun _ _ hle _ hm => ⟨_, Guard.at_of_holds hm (Logic.prepare fun n hn =>
    ⟨hle.native n hn, fun _ spec _ _ => hle.called n spec.params trivial⟩)⟩

theorem runUnits_safe {units : List Value} {scope : ScopeId} {m : Machine}
    (h : Value.GoodAll (Facts.after c.maxDepth t) units) :
    (Facts.after c.maxDepth t).Safe c.maxDepth ((Evaluator.ofConfig c).runUnits units scope) m :=
  fun G lenient hle _ hm => ⟨_, Guard.at_of_holds hm
    ((G.nested defaultPatience (c.maxDepth + 1) lenient).runUnits (Value.GoodAll.mono hle units h))⟩

theorem serve (h : Sound c t s.machine) {r : HostRequest}
    (hr : r.Good (Facts.after c.maxDepth t)) : Sound c (t ++ r.moments s) (r.serve s).machine := by
  cases hcode : r.code? with
  | some units =>
    obtain ⟨journal, hm⟩ := HostRequest.serve_machine s hcode
    have hev : s.evaluator = Evaluator.ofConfig c := by rw [Session.evaluator, h.config]
    have hrun := h.run (x := (Evaluator.ofConfig c).runUnits units s.user)
      (runUnits_safe (hr.code hcode))
    rw [hm, HostRequest.moments_of_code hcode, hev]
    exact hrun.change rfl rfl rfl ⟨hrun.good.scopes, hrun.good.feeds, hrun.good.snapshots⟩
  | none =>
    rw [HostRequest.moments_idle hcode, List.append_nil]
    obtain ⟨hs, hc, hn, hg⟩ := HostRequest.serve_idle s hcode
    exact h.change hs hc hn (hg h.good hr)

end Sound

theorem Lived.sound {c : Config} {t : List Moment} {s : Session} (h : Lived c t s) :
    Sound c t s.machine := by
  induction h with
  | @start listening s h =>
    have hrun := (Sound.new c listening).run (Sound.prepare_safe c _)
    rw [List.nil_append] at hrun
    obtain ⟨e, hs⟩ := Session.withRegistry_eq_ok h
    rw [hs]
    exact hrun.note e
  | serve r _ hr ih => exact ih.serve hr

def Eval.KeepsStack {α : Type} (x : Eval α) : Prop := ∀ m, (x m).2.stack = m.stack

/-- What entering a frame comes to: with `maxDepth` frames live the stack overflows, with fewer the
body runs in a frame of the next number. -/
def Eval.EntersWithin {α : Type} (maxDepth : Nat) (m : Machine) (feed : FeedId)
    (label : Option String) (body : Frame → Eval α) : Prop :=
  if m.depth = maxDepth then
    withFrame feed label body m = (.failed (.of (.stackOverflow maxDepth)), m) ∧
      (withFrame feed label body).trace m = [.refused m]
  else
    (withFrame feed label body).trace m =
      .entered label m :: (body { id := m.nextFrame, feed }).trace (m.enter label) ++
        [.left m.nextFrame (body { id := m.nextFrame, feed } (m.enter label)).2]

theorem Eval.entersWithin {α : Type} {m : Machine} (h : m.depth ≤ m.config.maxDepth) (feed : FeedId)
    (label : Option String) (body : Frame → Eval α) :
    Eval.EntersWithin m.config.maxDepth m feed label body := by
  unfold Eval.EntersWithin
  split
  · rename_i hd
    rw [← hd]
    exact withFrame_refused feed label body (Nat.le_of_eq hd.symm)
  · exact withFrame_entered feed label body (by omega)

/-- Frames in the life of a session.  Whatever enters frames leaves the stack as it was, at no time
are more frames live than may be, a stack overflows exactly when one more is to be entered, frames
get increasing numbers, and between requests no frame is live. -/
theorem Lived.frame_discipline {c : Config} {t : List Moment} {s : Session} (h : Lived c t s) :
    (∀ feed : FeedId,
      (∀ {α : Type} (label : Option String) (body : Frame → Eval α),
        (withFrame feed label body).KeepsStack) ∧
      (∀ frame, (s.evaluator.evalStep frame).KeepsStack) ∧
      (s.evaluator.runFeed feed).KeepsStack ∧
      ∀ p, (s.evaluator.invoke feed p).KeepsStack) ∧
    (∀ k ∈ t, k.before.depth ≤ c.maxDepth ∧ k.after.depth ≤ c.maxDepth) ∧
    (∀ {α : Type} (m : Machine) (feed : FeedId) (label : Option String) (body : Frame → Eval α),
      m.config = c → m.depth ≤ c.maxDepth → Eval.EntersWithin c.maxDepth m feed label body) ∧
    (∀ m, .refused m ∈ t → m.depth = c.maxDepth) ∧
    (∀ before f m rest n, t = before ++ .faulted f m :: rest → f.cause = .stackOverflow n →
      n = c.maxDepth ∧ ∃ m', .refused m' ∈ before) ∧
    (t.filterMap Moment.entered?).Pairwise (· < ·) ∧
    ∀ r : HostRequest, (r.serve s).machine.depth = 0 := by
  have hsound := h.sound
  refine ⟨fun feed => ⟨fun _ _ => Eval.run_stack _, fun _ => Eval.run_stack _, Eval.run_stack _,
    fun _ => Eval.run_stack _⟩, fun k hk => (hsound.depth_le k hk).2, ?_, ?_, ?_, ?_, ?_⟩
  · rintro α m feed label body rfl hdepth
    exact Eval.entersWithin hdepth feed label body
  · intro m hm
    obtain ⟨hconfig, hle, -⟩ := hsound.depth_le _ hm
    have hfull : m.config.maxDepth ≤ m.depth := hsound.possible _ hm
    rw [show m.config = c from hconfig] at hfull
    exact Nat.le_antisymm hle hfull
  · intro before f m rest n ht hn
    exact hsound.explained before f m rest ht n hn
  · rw [hsound.entered]
    exact List.pairwise_lt_range'
  · intro r
    rw [Machine.depth, r.serve_stack s, hsound.stack, List.length_nil]

def Moment.isRefused : Moment → Bool
  | .refused _ => true
  | _ => false

def Moment.isHalt : Moment → Bool
  | .raised { label := .halt, .. } _ => true
  | _ => false

def Moment.startsWhile : Moment → Bool
  | .asked (.mark (.operation n _)) _ => n.operation == .control .whileTrue
  | _ => false

/-- Groups that nest too deep, a loop, and a stop inside a catch and a trap. -/
def excursion : HostRequest := .text "trap [((((1))))] loop 2 [1] trap [catch [halt]]"

def Moment.begins (name : String) : Moment → Bool
  | .asked (.mark (.operation n _)) _ => n.name == name
  | _ => false

/-- Whether a history has a trap, a refusal and a stop, and no `while`. -/
def isEventful (t : List Moment) : Bool :=
  t.any (Moment.begins "trap") && t.any Moment.isRefused && t.any Moment.isHalt &&
    t.all fun k => !k.startsWhile

theorem excursion_eventful :
    (match Session.withRegistry { maxDepth := 6 } .standard false with
      | .ok s => isEventful (excursion.moments s)
      | .error _ => false) = true := by
  rw [Registry.withRegistry_eq_unread Registry.standard_installable]
  decide +kernel

theorem start_excursion :
    ∃ s units, Session.withRegistry { maxDepth := 6 } .standard false = .ok s ∧
      excursion.code? = some units ∧ isEventful (excursion.moments s) = true := by
  have h := excursion_eventful
  split at h
  · rename_i s hs
    cases hcode : excursion.code? with
    | some units => exact ⟨s, units, hs, rfl, h⟩
    | none =>
      rw [HostRequest.moments_idle hcode] at h
      cases h
  · cases h

theorem exists_excursion :
    ∃ t s units, Lived { maxDepth := 6 } t s ∧ excursion.code? = some units ∧
      (∃ k ∈ excursion.moments s, k.isRefused = true) ∧
      (∃ k ∈ excursion.moments s, k.isHalt = true) ∧
      ∀ k ∈ excursion.moments s, k.startsWhile = false := by
  obtain ⟨s, units, hs, hcode, h⟩ := start_excursion
  simp only [isEventful, Bool.and_eq_true, List.any_eq_true, List.all_eq_true,
    Bool.not_eq_true'] at h
  obtain ⟨⟨⟨-, hrefused⟩, hhalt⟩, hwhile⟩ := h
  exact ⟨_, s, units, .start hs, hcode, hrefused, hhalt, hwhile⟩

theorem Lived.frame_discipline_excursion :
    ∃ t s, Lived { maxDepth := 6 } t s ∧ (∃ m, .refused m ∈ t) ∧
      (∀ m, .refused m ∈ t → m.depth = 6) ∧ (t.filterMap Moment.entered?).Pairwise (· < ·) := by
  obtain ⟨t, s, -, hlived, -, ⟨k, hk, hrefused⟩, -⟩ := exists_excursion
  have hlived' := hlived.serve excursion trivial
  obtain ⟨-, -, -, hdepth, -, hids, -⟩ := hlived'.frame_discipline
  refine ⟨_, _, hlived', ?_, hdepth, hids⟩
  cases k with
  | refused m => exact ⟨m, List.mem_append_right t hk⟩
  | _ => cases hrefused

end Homoicon
