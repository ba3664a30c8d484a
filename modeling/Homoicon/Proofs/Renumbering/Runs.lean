import Homoicon.Evaluate.Step
import Homoicon.Proofs.Mirror
import Homoicon.Proofs.Renumbering.Machines
import Homoicon.Proofs.Return

/-!
# Evaluations under a renumbering

`ρ.Holds Q x x'` says that `x` and `x'` end alike on machines that match, with results that `Q`
relates, and leave machines that match again.  There is a rule for each way of putting evaluations
together, and one for each thing that they ask of the machine.
-/

namespace Homoicon

variable {ρ : Renumbering} {α β : Type}

/-! ### Counters -/

theorem Command.precedes_run (c : Command β) (m : Machine) : m.Precedes (c.run m).2 := by
  refine ⟨Nat.le_of_eq (c.run_frames m).2.2.symm, ?_⟩
  have hnote : ∀ e, (m.note e).nextIdentity = m.nextIdentity := by
    intro e
    obtain ⟨_, hj⟩ := m.note_eq e
    rw [hj]
  cases c with
  | freshIdentity => exact Nat.le_succ _
  | assign scope name v =>
    obtain ⟨_, h⟩ := m.assign_eq scope name v
    rw [Command.run, h]
  | poll =>
    obtain ⟨_, _, _, _, hpoll⟩ := m.poll_eq
    rw [Command.run, hpoll]
  | note e => exact Nat.le_of_eq (hnote e).symm
  | noteState id state =>
    simp only [Command.run]
    split
    · exact Nat.le_of_eq (hnote _).symm
    · exact Nat.le_refl _
  | _ => exact Nat.le_refl _

theorem Eval.precedes_run (x : Eval α) (m : Machine) : m.Precedes (x m).2 := by
  refine ⟨x.nextFrame_le_run m, ((x.trace_connected m).invariant
    (P := fun n => m.nextIdentity ≤ n.nextIdentity) (fun k _ hk => Nat.le_trans hk ?_)
    (Nat.le_refl _)).2⟩
  cases k with
  | asked c n => exact (c.precedes_run n).2
  | _ => exact Nat.le_refl _

theorem Eval.precedes_run_bind (x : Eval α) (f : α → Eval β) (m : Machine) :
    (x m).2.Precedes ((x >>= f) m).2 := by
  rw [run_bind]
  rcases x m with ⟨a | _ | _ | _, m'⟩
  · exact (f a).precedes_run m'
  all_goals exact ⟨Nat.le_refl _, Nat.le_refl _⟩

/-! ### Outcomes that match -/

inductive ExceptRel {ε : Type} (E : ε → ε → Prop) (Q : α → α → Prop) :
    Except ε α → Except ε α → Prop
  | ok {a a' : α} (h : Q a a') : ExceptRel E Q (.ok a) (.ok a')
  | error {f f' : ε} (h : E f f') : ExceptRel E Q (.error f) (.error f')

inductive Outcome.Matches (ρ : Renumbering) (Q : α → α → Prop) : Outcome α → Outcome α → Prop
  | done {a a' : α} (h : Q a a') : Outcome.Matches ρ Q (.done a) (.done a')
  | thrown {s s' : Signal} (h : s.Matches ρ s') : Outcome.Matches ρ Q (.thrown s) (.thrown s')
  | failed {f f' : Fault} (h : f.Matches ρ f') : Outcome.Matches ρ Q (.failed f) (.failed f')
  | exhausted : Outcome.Matches ρ Q .exhausted .exhausted

namespace Outcome.Matches

variable {Q : α → α → Prop} {o o' : Outcome α}

theorem seeSignal (h : o.Matches ρ Q o') :
    o.seeSignal.Matches ρ (ExceptRel (Signal.Matches ρ) Q) o'.seeSignal := by
  cases h with
  | done h => exact .done (.ok h)
  | thrown h => exact .done (.error h)
  | failed h => exact .failed h
  | exhausted => exact .exhausted

theorem seeFault (h : o.Matches ρ Q o') :
    o.seeFault.Matches ρ (ExceptRel (Fault.Matches ρ) Q) o'.seeFault := by
  cases h with
  | done h => exact .done (.ok h)
  | thrown h => exact .thrown h
  | failed h => exact .done (.error h)
  | exhausted => exact .exhausted

theorem leave (h : o.Matches ρ Q o') (label : Option String) :
    (o.leave label).Matches ρ Q (o'.leave label) := by
  cases h with
  | done h => exact .done h
  | thrown h => exact .thrown h
  | failed h => exact .failed (h.inCall? label)
  | exhausted => exact .exhausted

end Outcome.Matches

namespace Renumbering

/-- The machines match, and what the first one hands out before `e` has the number in the second one
that the renumbering says. -/
structure Relates (ρ : Renumbering) (e m m' : Machine) : Prop where
  same : m.Matches ρ m'
  frames : ∀ n : Nat, m.nextFrame ≤ n → n < e.nextFrame → ρ.frame n + m.nextFrame = n + m'.nextFrame
  identities : ∀ n : Nat, m.nextIdentity ≤ n → n < e.nextIdentity →
    ρ.identity n + m.nextIdentity = n + m'.nextIdentity

def Holds (ρ : Renumbering) (Q : α → α → Prop) (x x' : Eval α) : Prop :=
  ∀ ⦃e m m' : Machine⦄, ρ.Relates e m m' → (x m).2.Precedes e →
    (x m).1.Matches ρ Q (x' m').1 ∧ ρ.Relates e (x m).2 (x' m').2

namespace Holds

variable {P Q : α → α → Prop} {x x' : Eval α}

theorem ret {a a' : α} (h : Q a a') : ρ.Holds Q (pure a) (pure a') := fun _ _ _ hm _ => ⟨.done h, hm⟩

theorem fail {f f' : Fault} (h : f.Matches ρ f') : ρ.Holds Q (.fail f) (.fail f') :=
  fun _ _ _ hm _ => ⟨.failed h, hm⟩

theorem signal {s s' : Signal} (h : s.Matches ρ s') : ρ.Holds Q (.signal s) (.signal s') :=
  fun _ _ _ hm _ => ⟨.thrown h, hm⟩

theorem exhaust : ρ.Holds Q .exhaust .exhaust := fun _ _ _ hm _ => ⟨.exhausted, hm⟩

theorem bind {Q : β → β → Prop} {f f' : α → Eval β} (hx : ρ.Holds P x x')
    (hf : ∀ a a', P a a' → ρ.Holds Q (f a) (f' a')) : ρ.Holds Q (x >>= f) (x' >>= f') := by
  intro e m m' hm he
  obtain ⟨ho, hleft⟩ := hx hm ((x.precedes_run_bind f m).trans he)
  rw [Eval.run_bind] at he
  rw [Eval.run_bind, Eval.run_bind]
  generalize x m = r, x' m' = r' at ho hleft he
  obtain ⟨o, n⟩ := r
  obtain ⟨o', n'⟩ := r'
  cases ho with
  | done h => exact hf _ _ h hleft he
  | thrown h => exact ⟨.thrown h, hleft⟩
  | failed h => exact ⟨.failed h, hleft⟩
  | exhausted => exact ⟨.exhausted, hleft⟩

theorem catchSignal (h : ρ.Holds Q x x') :
    ρ.Holds (ExceptRel (Signal.Matches ρ) Q) x.catchSignal x'.catchSignal := by
  intro e m m' hm he
  rw [x.run_catchSignal] at he
  obtain ⟨ho, hleft⟩ := h hm he
  rw [x.run_catchSignal, x'.run_catchSignal]
  exact ⟨ho.seeSignal, hleft⟩

theorem catchFault (h : ρ.Holds Q x x') :
    ρ.Holds (ExceptRel (Fault.Matches ρ) Q) x.catchFault x'.catchFault := by
  intro e m m' hm he
  rw [x.run_catchFault] at he
  obtain ⟨ho, hleft⟩ := h hm he
  rw [x.run_catchFault, x'.run_catchFault]
  exact ⟨ho.seeFault, hleft⟩

theorem inFrame {label : Option String} {body body' : FrameId → Eval α}
    (h : ∀ id, ρ.Holds Q (body id) (body' (ρ.frame id))) :
    ρ.Holds Q (.inFrame label body .done) (.inFrame label body' .done) := by
  intro e m m' hm he
  have hroom : m'.config.maxDepth ≤ m'.depth ↔ m.config.maxDepth ≤ m.depth := by
    rw [hm.same.config, hm.same.depth]
  by_cases hfull : m.config.maxDepth ≤ m.depth
  · rw [Eval.run_inFrame_refused hfull, Eval.run_inFrame_refused (hroom.2 hfull), hm.same.depth]
    exact ⟨.failed (.refl _), hm⟩
  · rw [Eval.run_inFrame hfull] at he
    rw [Eval.run_inFrame hfull, Eval.run_inFrame (mt hroom.1 hfull)]
    have hstart : m.nextFrame < e.nextFrame :=
      Nat.lt_of_lt_of_le (Nat.lt_succ_self _)
        (((body m.nextFrame).precedes_run (m.enter label)).trans he).1
    have hid : ρ.frame m.nextFrame = m'.nextFrame := by
      have := hm.frames _ (Nat.le_refl _) hstart
      omega
    have henter : ρ.Relates e (m.enter label) (m'.enter label) := by
      refine ⟨{ hm.same with labels := ?_ }, fun n hn hlt => ?_, hm.identities⟩
      · exact congrArg (label :: ·) hm.same.labels
      · have hle : m.nextFrame + 1 ≤ n := hn
        have := hm.frames n (Nat.le_of_succ_le hle) hlt
        show ρ.frame n + (m.nextFrame + 1) = n + (m'.nextFrame + 1)
        omega
    obtain ⟨ho, hleft⟩ := h m.nextFrame henter he
    rw [hid] at ho hleft
    refine ⟨ho.leave label, ⟨{ hleft.same with labels := ?_ }, hleft.frames, hleft.identities⟩⟩
    have hstack := Machine.stack_leave ((body m.nextFrame).run_stack (m.enter label))
    have hstack' := Machine.stack_leave ((body' m'.nextFrame).run_stack (m'.enter label))
    rw [hstack, hstack']
    exact hm.same.labels

theorem withFrame {feed : FeedId} {label : Option String} {body body' : Frame → Eval α}
    (h : ∀ id, ρ.Holds Q (body { id, feed }) (body' { id := ρ.frame id, feed })) :
    ρ.Holds Q (withFrame feed label body) (withFrame feed label body') :=
  inFrame h

theorem ofExcept {r r' : Except Fault α} (h : ExceptRel (Fault.Matches ρ) Q r r') :
    ρ.Holds Q (Eval.ofExcept r) (Eval.ofExcept r') := by
  cases h with
  | ok h => exact .ret h
  | error h => exact .fail h

theorem failWith {c c' : Cause} (h : ρ.Alike c.message c'.message) :
    ρ.Holds Q (Eval.failWith c) (Eval.failWith c') := .fail (.of h)

theorem onlyIf {b : Bool} {x x' : Eval Unit}
    (h : b = true → ρ.Holds (fun _ _ => True) x x') :
    ρ.Holds (fun _ _ => True) (Eval.onlyIf b x) (Eval.onlyIf b x') := by
  cases b with
  | true => exact h rfl
  | false => exact .ret trivial

theorem mapFault {g g' : Fault → Eval Fault} (hx : ρ.Holds Q x x')
    (hg : ∀ f f', f.Matches ρ f' → ρ.Holds (Fault.Matches ρ) (g f) (g' f')) :
    ρ.Holds Q (x.mapFault g) (x'.mapFault g') := by
  refine hx.catchFault.bind fun r r' hr => ?_
  cases hr with
  | ok h => exact .ret h
  | error h => exact (hg _ _ h).bind fun _ _ h => .fail h

/-! ### What evaluations ask for -/

theorem command {c c' : Command β} {Q : β → β → Prop}
    (h : ∀ ⦃e m m'⦄, ρ.Relates e m m' → (c.run m).2.Precedes e →
      Q (c.run m).1 (c'.run m').1 ∧ ρ.Relates e (c.run m).2 (c'.run m').2) :
    ρ.Holds Q (Eval.command c) (Eval.command c') := fun _ _ _ hm he =>
  ⟨.done (h hm he).1, (h hm he).2⟩

theorem look {c c' : Command β} {Q : β → β → Prop}
    (h : ∀ m m', m.Matches ρ m' → Q (c.run m).1 (c'.run m').1)
    (hc : ∀ m, (c.run m).2 = m) (hc' : ∀ m, (c'.run m).2 = m) :
    ρ.Holds Q (Eval.command c) (Eval.command c') := by
  refine command fun e m m' hm _ => ⟨h m m' hm.same, ?_⟩
  rw [hc, hc']
  exact hm

theorem change {c c' : Command β} {Q : β → β → Prop}
    (h : ∀ m m', m.Matches ρ m' → Q (c.run m).1 (c'.run m').1 ∧ (c.run m).2.Matches ρ (c'.run m').2)
    (hc : ∀ m, (c.run m).2.nextIdentity = m.nextIdentity)
    (hc' : ∀ m, (c'.run m).2.nextIdentity = m.nextIdentity) :
    ρ.Holds Q (Eval.command c) (Eval.command c') := by
  refine command fun e m m' hm _ => ?_
  obtain ⟨hanswer, hleft⟩ := h m m' hm.same
  refine ⟨hanswer, hleft, ?_, ?_⟩
  · rw [(c.run_frames m).2.2, (c'.run_frames m').2.2]
    exact hm.frames
  · rw [hc, hc']
    exact hm.identities

variable {scope : ScopeId} {feed : FeedId} {name : String} {v v' : Value}

theorem note {e e' : Event} : ρ.Holds (fun _ _ => True) (Eval.note e) (Eval.note e') := by
  have hnote : ∀ (m : Machine) (e : Event), (m.note e).nextIdentity = m.nextIdentity := by
    intro m e
    obtain ⟨_, hj⟩ := m.note_eq e
    rw [hj]
  exact change (fun m m' hm => ⟨trivial, hm.note e e'⟩) (hnote · e) (hnote · e')

theorem noteState {frame frame' : Frame} {state state' : String} :
    ρ.Holds (fun _ _ => True) (Evaluator.noteState frame state)
      (Evaluator.noteState frame' state') := by
  intro e m m' hm _
  obtain ⟨j, hj⟩ := Evaluator.noteState_run frame state m
  obtain ⟨j', hj'⟩ := Evaluator.noteState_run frame' state' m'
  rw [hj, hj']
  exact ⟨.done trivial, hm.same.journal j j', hm.frames, hm.identities⟩

theorem mark {k k' : Mark} :
    ρ.Holds (fun _ _ => True) (Eval.command (.mark k)) (Eval.command (.mark k')) :=
  look (fun _ _ _ => trivial) (fun _ => rfl) fun _ => rfl

theorem freshIdentity :
    ρ.Holds (fun id id' => id' = ρ.identity id) Eval.freshIdentity Eval.freshIdentity := by
  refine command fun e m m' hm he => ?_
  have hid := hm.identities m.nextIdentity (Nat.le_refl _) he.2
  refine ⟨Nat.add_left_cancel (n := m.nextIdentity) ?_, { hm.same with }, hm.frames, ?_⟩
  · rw [Nat.add_comm _ (ρ.identity _)]
    exact hid.symm
  · intro n hn hlt
    have hle : m.nextIdentity + 1 ≤ n := hn
    have := hm.identities n (Nat.le_of_succ_le hle) hlt
    show ρ.identity n + (m.nextIdentity + 1) = n + (m'.nextIdentity + 1)
    omega

theorem lookup :
    ρ.Holds (Value.MaybeMatch ρ) (Eval.lookup scope name) (Eval.lookup scope name) :=
  look (fun _ _ hm => hm.scopes.lookup scope name) (fun _ => rfl) fun _ => rfl

theorem newScope {parent : Option ScopeId} :
    ρ.Holds Eq (Eval.newScope parent) (Eval.newScope parent) :=
  change (fun _ _ hm => ⟨hm.scopes.next.symm, { hm with scopes := hm.scopes.make parent }⟩)
    (fun _ => rfl) fun _ => rfl

theorem define (hv : v.Matches ρ v') :
    ρ.Holds (fun _ _ => True) (Eval.define scope name v) (Eval.define scope name v') :=
  change (fun _ _ hm => ⟨trivial, { hm with scopes := hm.scopes.define scope name hv }⟩)
    (fun _ => rfl) fun _ => rfl

theorem assign (hv : v.Matches ρ v') :
    ρ.Holds (fun _ _ => True) (Eval.assign scope name v) (Eval.assign scope name v') := by
  have hcount : ∀ (m : Machine) (v : Value),
      (m.assign scope name v).nextIdentity = m.nextIdentity := by
    intro m v
    obtain ⟨_, h⟩ := m.assign_eq scope name v
    rw [h]
  refine change (fun m m' hm => ⟨trivial, ?_⟩) (hcount · v) (hcount · v')
  obtain ⟨_, h⟩ := m.assign_eq scope name v
  obtain ⟨_, h'⟩ := m'.assign_eq scope name v'
  simp only [Command.run, h, h']
  exact { hm with scopes := hm.scopes.assign scope name hv }

theorem newFeed {units units' : List Value} (hu : Value.AllMatch ρ units units') :
    ρ.Holds Eq (Eval.newFeed units scope) (Eval.newFeed units' scope) :=
  change (fun _ _ hm => ⟨hm.size.symm, hm.newFeed scope hu⟩) (fun _ => rfl) fun _ => rfl

theorem scopeOf : ρ.Holds Eq (Eval.scopeOf feed) (Eval.scopeOf feed) :=
  look (fun _ _ hm => (hm.feeds feed).scope.symm) (fun _ => rfl) fun _ => rfl

theorem peek : ρ.Holds (Value.MaybeMatch ρ) (Eval.peek feed) (Eval.peek feed) :=
  look (fun _ _ hm => (hm.feeds feed).peek) (fun _ => rfl) fun _ => rfl

theorem peekNext :
    ρ.Holds (Value.MaybeMatch ρ) (Eval.command (.peekNext feed)) (Eval.command (.peekNext feed)) :=
  look (fun _ _ hm => (hm.feeds feed).peekNext) (fun _ => rfl) fun _ => rfl

theorem lookback :
    ρ.Holds (Value.MaybeMatch ρ) (Eval.command (.lookback feed)) (Eval.command (.lookback feed)) :=
  look (fun _ _ hm => (hm.feeds feed).lookback) (fun _ => rfl) fun _ => rfl

theorem unitsLeft : ρ.Holds Eq (Eval.unitsLeft feed) (Eval.unitsLeft feed) :=
  look (fun _ _ hm => (hm.feeds feed).units.length_eq) (fun _ => rfl) fun _ => rfl

theorem deferring : ρ.Holds Eq (Eval.deferring feed) (Eval.deferring feed) :=
  look (fun _ _ hm => (hm.feeds feed).deferring.symm) (fun _ => rfl) fun _ => rfl

theorem atEnd : ρ.Holds Eq (Eval.atEnd feed) (Eval.atEnd feed) :=
  peek.bind fun _ _ h => .ret (by rw [← Option.not_isSome, ← Option.not_isSome, rel_isSome h])

theorem atArgumentEnd : ρ.Holds Eq (Eval.atArgumentEnd feed) (Eval.atArgumentEnd feed) := by
  refine peek.bind fun unit unit' h => ?_
  cases h with
  | none => exact .ret rfl
  | some h => cases h <;> exact .ret rfl

theorem updateFeed {c : Command Unit} {f : Feed → Feed}
    (hc : ∀ m, (c.run m).2 = m.updateFeed feed f)
    (hf : ∀ {a b : Feed}, a.Matches ρ b → (f a).Matches ρ (f b)) :
    ρ.Holds (fun _ _ => True) (Eval.command c) (Eval.command c) := by
  have hcount : ∀ m, (c.run m).2.nextIdentity = m.nextIdentity := fun m => by rw [hc]; rfl
  refine change (fun m m' hm => ⟨trivial, ?_⟩) hcount hcount
  rw [hc, hc]
  exact hm.updateFeed feed hf

theorem advance : ρ.Holds (fun _ _ => True) (Eval.advance feed) (Eval.advance feed) :=
  updateFeed (fun _ => rfl) fun h => h.advance

theorem setNoLookahead :
    ρ.Holds (fun _ _ => True) (Eval.setNoLookahead feed) (Eval.setNoLookahead feed) :=
  updateFeed (f := fun f => { f with noLookahead := true }) (fun _ => rfl)
    fun h => { h with noLookahead := rfl }

theorem setDeferring {b : Bool} :
    ρ.Holds (fun _ _ => True) (Eval.setDeferring feed b) (Eval.setDeferring feed b) :=
  updateFeed (f := fun f => { f with deferring := b }) (fun _ => rfl)
    fun h => { h with deferring := rfl }

theorem takeNoLookahead : ρ.Holds Eq (Eval.takeNoLookahead feed) (Eval.takeNoLookahead feed) := by
  have hread : ρ.Holds Eq (Eval.command (.noLookahead feed)) (Eval.command (.noLookahead feed)) :=
    look (fun _ _ hm => (hm.feeds feed).noLookahead.symm) (fun _ => rfl) fun _ => rfl
  refine hread.bind fun b b' hb => bind (P := fun _ _ => True) ?_ fun _ _ _ => .ret hb
  exact updateFeed (f := fun f => { f with noLookahead := false }) (fun _ => rfl)
    fun h => { h with noLookahead := rfl }

theorem resolveGet :
    ρ.Holds (Value.Matches ρ) (Eval.resolveGet feed name) (Eval.resolveGet feed name) := by
  refine scopeOf.bind fun s _ hs => ?_
  subst hs
  refine lookup.bind fun v v' hv => ?_
  cases hv with
  | none => exact .failWith (.refl _)
  | some hv => exact .ret hv

theorem resolve :
    ρ.Holds (Value.Matches ρ) (Eval.resolve feed name) (Eval.resolve feed name) := by
  refine resolveGet.bind fun v v' hv => ?_
  cases hv with
  | void => exact .failWith (.refl _)
  | _ => exact .ret (by constructor <;> assumption)

theorem reify {id : FrameId} {b b' : Bindings} (h : Bindings.Matches ρ b b') :
    ρ.Holds (fun _ _ => True) (Eval.command (.reify id b))
      (Eval.command (.reify (ρ.frame id) b')) :=
  change (fun _ _ hm => ⟨trivial, { hm with snapshots := .cons ⟨rfl, h⟩ hm.snapshots }⟩)
    (fun _ => rfl) fun _ => rfl

theorem frameArgument {id : FrameId} :
    ρ.Holds (Value.MaybeMatch ρ) (Eval.command (.frameArgument id name))
      (Eval.command (.frameArgument (ρ.frame id) name)) :=
  look (fun _ _ hm => hm.frameArgument? id name) (fun _ => rfl) fun _ => rfl

theorem depth : ρ.Holds Eq (Eval.command .depth) (Eval.command .depth) :=
  look (fun _ _ hm => hm.depth.symm) (fun _ => rfl) fun _ => rfl

theorem tick : ρ.Holds Eq (Eval.command .tick) (Eval.command .tick) :=
  look (fun _ _ hm => hm.tick.symm) (fun _ => rfl) fun _ => rfl

theorem backtrace : ρ.Holds Eq (Eval.command .backtrace) (Eval.command .backtrace) :=
  look (fun _ _ hm => hm.backtrace.symm) (fun _ => rfl) fun _ => rfl

theorem poll : ρ.Holds (Option.Rel (Signal.Matches ρ)) Eval.poll Eval.poll := by
  have hcount : ∀ m : Machine, m.poll.2.nextIdentity = m.nextIdentity := by
    intro m
    obtain ⟨_, _, _, _, hpoll⟩ := m.poll_eq
    rw [hpoll]
  refine change (fun m m' hm => ⟨?_, hm.poll.2⟩) hcount hcount
  simp only [Command.run]
  rw [hm.poll.1]
  cases hs : m.poll.1 with
  | none => exact .none
  | some s =>
    rw [m.poll_signal hs]
    exact .some .halt

theorem requestStop : ρ.Holds (fun _ _ => True) Eval.requestStop Eval.requestStop :=
  change (fun _ _ hm => ⟨trivial, { hm with interrupt := rfl }⟩) (fun _ => rfl) fun _ => rfl

theorem printLine {s s' : String} (h : ρ.Alike s s') :
    ρ.Holds (fun _ _ => True) (Eval.printLine s) (Eval.printLine s') :=
  change (fun _ _ hm => ⟨trivial, { hm with printed := (hm.printed.append h).append (.refl _) }⟩)
    (fun _ => rfl) fun _ => rfl

theorem handle {taker taker' : Taker} {take take' : Signal → Eval α} (hx : ρ.Holds Q x x')
    (ht : taker.Matches ρ taker')
    (htake : ∀ s s', s.Matches ρ s' → ρ.Holds Q (take s) (take' s')) :
    ρ.Holds Q (x.handle taker take) (x'.handle taker' take') := by
  refine hx.catchSignal.bind fun r r' hr => ?_
  cases hr with
  | ok h => exact .ret h
  | error h =>
    dsimp only
    rw [ht.takes h]
    split
    · exact mark.bind fun _ _ _ => htake _ _ h
    · exact .signal h

end Holds

end Renumbering

end Homoicon
