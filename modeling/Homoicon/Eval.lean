import Homoicon.Command

/-!
# Evaluations

An evaluation is a tree: it is over with one of four outcomes, or it asks a command of the machine,
runs an evaluation in a frame of its own, or runs one whose signals or faults it looks at, and goes
on with the answer.  The four outcomes are a result, a thrown signal, a failure, and giving up
because a loop without a bound of its own ran out of patience.

`Eval.run` runs an evaluation on a machine.  What it did to the machine stays done in every case.
-/

namespace Homoicon

inductive Outcome (α : Type) where
  | done (a : α)
  | thrown (s : Signal)
  | failed (f : Fault)
  | exhausted

/-- An evaluation with a result of type `α`. -/
inductive Eval : Type → Type 1 where
  | done {α : Type} (a : α) : Eval α
  | signal {α : Type} (s : Signal) : Eval α
  | fail {α : Type} (f : Fault) : Eval α
  | exhaust {α : Type} : Eval α
  /-- Asks a command and goes on with the answer. -/
  | ask {α β : Type} (c : Command β) (next : β → Eval α) : Eval α
  /-- Runs `body` in a new frame, which is left however `body` ends. -/
  | inFrame {α β : Type} (label : Option String) (body : FrameId → Eval β) (next : β → Eval α) :
    Eval α
  /-- Goes on with the result of `x`, or with the signal that it threw. -/
  | seeSignal {α β : Type} (x : Eval β) (next : Except Signal β → Eval α) : Eval α
  /-- Goes on with the result of `x`, or with the fault that it failed with. -/
  | seeFault {α β : Type} (x : Eval β) (next : Except Fault β → Eval α) : Eval α

/-- A fault with the label of the call it comes from, if the call has one. -/
def Fault.inCall? (f : Fault) (label : Option String) : Fault :=
  match label with
  | some l => f.inCall l
  | none => f

namespace Eval

/-- One evaluation after another; anything but a result ends both. -/
def bind {α β : Type} : Eval α → (α → Eval β) → Eval β
  | .done a, f => f a
  | .signal s, _ => .signal s
  | .fail e, _ => .fail e
  | .exhaust, _ => .exhaust
  | .ask c next, f => .ask c fun b => (next b).bind f
  | .inFrame label body next, f => .inFrame label body fun b => (next b).bind f
  | .seeSignal x next, f => .seeSignal x fun r => (next r).bind f
  | .seeFault x next, f => .seeFault x fun r => (next r).bind f

instance : Monad Eval where
  pure := Eval.done
  bind := Eval.bind

/-- Runs an evaluation on a machine.  A frame is refused if as many are live as may be. -/
def run : {α : Type} → Eval α → Machine → Outcome α × Machine
  | _, .done a, m => (.done a, m)
  | _, .signal s, m => (.thrown s, m)
  | _, .fail f, m => (.failed f, m)
  | _, .exhaust, m => (.exhausted, m)
  | _, .ask c next, m =>
    match c.run m with
    | (b, m) => (next b).run m
  | _, .inFrame label body next, m =>
    if m.config.maxDepth ≤ m.depth then (.failed (.of (.stackOverflow m.depth)), m)
    else
      let id := m.nextFrame
      match (body id).run (m.enter label) with
      | (.done b, m) => (next b).run (m.leave id)
      | (.thrown s, m) => (.thrown s, m.leave id)
      | (.failed f, m) => (.failed (f.inCall? label), m.leave id)
      | (.exhausted, m) => (.exhausted, m.leave id)
  | _, .seeSignal x next, m =>
    match x.run m with
    | (.done b, m) => (next (.ok b)).run m
    | (.thrown s, m) => (next (.error s)).run m
    | (.failed f, m) => (.failed f, m)
    | (.exhausted, m) => (.exhausted, m)
  | _, .seeFault x next, m =>
    match x.run m with
    | (.done b, m) => (next (.ok b)).run m
    | (.thrown s, m) => (.thrown s, m)
    | (.failed f, m) => (next (.error f)).run m
    | (.exhausted, m) => (.exhausted, m)

instance {α : Type} : CoeFun (Eval α) fun _ => Machine → Outcome α × Machine := ⟨Eval.run⟩

@[inline] def command {β : Type} (c : Command β) : Eval β := .ask c .done

def failWith {α : Type} (cause : Cause) : Eval α := .fail (.of cause)

def ofExcept {α : Type} : Except Fault α → Eval α
  | .ok a => .done a
  | .error f => .fail f

def catchSignal {α : Type} (x : Eval α) : Eval (Except Signal α) := .seeSignal x .done

def catchFault {α : Type} (x : Eval α) : Eval (Except Fault α) := .seeFault x .done

def mapFault {α : Type} (f : Fault → Eval Fault) (x : Eval α) : Eval α := do
  match ← x.catchFault with
  | .ok a => return a
  | .error e =>
    let e ← f e
    .fail e

/-- Takes the signals that are meant for `taker`; others pass. -/
def handle {α : Type} (taker : Taker) (x : Eval α) (take : Signal → Eval α) : Eval α := do
  match ← x.catchSignal with
  | .ok a => return a
  | .error s =>
    if taker.takes s then
      command (.mark (.taken taker s))
      take s
    else .signal s

def onlyIf (b : Bool) (x : Eval Unit) : Eval Unit := if b then x else .done ()

def note (e : Event) : Eval Unit := command (.note e)

def freshIdentity : Eval Identity := command .freshIdentity

/-! ### Scopes -/

def newScope (parent : Option ScopeId) : Eval ScopeId := command (.newScope parent)

def lookup (s : ScopeId) (name : String) : Eval (Option Value) := command (.lookup s name)

def define (s : ScopeId) (name : String) (v : Value) : Eval Unit := command (.define s name v)

def assign (s : ScopeId) (name : String) (v : Value) : Eval Unit := command (.assign s name v)

/-! ### Feeds -/

def newFeed (units : List Value) (scope : ScopeId) : Eval FeedId := command (.newFeed units scope)

def readFeed {α : Type} (id : FeedId) (f : Feed → α) : Eval α := do
  let feed ← command (.feed id)
  return f feed

def peek (id : FeedId) : Eval (Option Value) := command (.peek id)

def atEnd (id : FeedId) : Eval Bool := do
  let unit ← peek id
  return unit.isNone

/-- Whether no argument can be taken from a feed: at its end or at a barrier. -/
def atArgumentEnd (id : FeedId) : Eval Bool := do
  match ← peek id with
  | none | some .comma => return true
  | some _ => return false

def advance (id : FeedId) : Eval Unit := command (.advance id)

def unitsLeft (id : FeedId) : Eval Nat := command (.unitsLeft id)

def scopeOf (id : FeedId) : Eval ScopeId := command (.scopeOf id)

/-- Takes the request that the next step must not look ahead. -/
def takeNoLookahead (id : FeedId) : Eval Bool := do
  let requested ← command (.noLookahead id)
  command (.setNoLookahead id false)
  return requested

def setNoLookahead (id : FeedId) : Eval Unit := command (.setNoLookahead id true)

def deferring (id : FeedId) : Eval Bool := command (.deferring id)

def setDeferring (id : FeedId) (b : Bool) : Eval Unit := command (.setDeferring id b)

/-- The value of a word of a feed; the void placeholder may be read. -/
def resolveGet (id : FeedId) (name : String) : Eval Value := do
  let scope ← scopeOf id
  match ← lookup scope name with
  | some v => return v
  | none => failWith (.unboundName name)

def resolve (id : FeedId) (name : String) : Eval Value := do
  match ← resolveGet id name with
  | .void => failWith (.voidRead name)
  | v => return v

/-! ### Interrupts and output -/

/-- The checkpoint at the start of every step; a stop that was requested is taken up. -/
def poll : Eval (Option Signal) := command .poll

def requestStop : Eval Unit := command .requestStop

def printLine (s : String) : Eval Unit := command (.printLine s)

def takePrinted : Eval String := command .takePrinted

/-! ### Running -/

variable {α β : Type}

@[simp] theorem run_pure (a : α) (m : Machine) : (pure a : Eval α) m = (.done a, m) := rfl

@[simp] theorem run_done (a : α) (m : Machine) : (done a : Eval α) m = (.done a, m) := rfl

@[simp] theorem run_signal (s : Signal) (m : Machine) :
    (signal s : Eval α) m = (.thrown s, m) := rfl

@[simp] theorem run_fail (f : Fault) (m : Machine) : (fail f : Eval α) m = (.failed f, m) := rfl

@[simp] theorem run_exhaust (m : Machine) : (exhaust : Eval α) m = (.exhausted, m) := rfl

@[simp] theorem run_command (c : Command β) (m : Machine) :
    command c m = (.done (c.run m).1, (c.run m).2) := rfl

theorem bind_pure (x : Eval α) : (x >>= pure) = x := by
  show x.bind .done = x
  induction x with
  | done _ => rfl
  | signal _ => rfl
  | fail _ => rfl
  | exhaust => rfl
  | ask c next ih => simp only [Eval.bind, ih]
  | inFrame label body next _ ih => simp only [Eval.bind, ih]
  | seeSignal x next _ ih => simp only [Eval.bind, ih]
  | seeFault x next _ ih => simp only [Eval.bind, ih]

theorem bind_assoc {γ : Type} (x : Eval α) (f : α → Eval β) (g : β → Eval γ) :
    (x >>= f >>= g) = x >>= fun a => f a >>= g := by
  show (x.bind f).bind g = x.bind fun a => (f a).bind g
  induction x with
  | done _ => rfl
  | signal _ => rfl
  | fail _ => rfl
  | exhaust => rfl
  | ask c next ih => simp only [Eval.bind, ih]
  | inFrame label body next _ ih => simp only [Eval.bind, ih]
  | seeSignal x next _ ih => simp only [Eval.bind, ih]
  | seeFault x next _ ih => simp only [Eval.bind, ih]

theorem run_bind (x : Eval α) (f : α → Eval β) (m : Machine) :
    (x >>= f) m =
      match x m with
      | (.done a, m) => f a m
      | (.thrown s, m) => (.thrown s, m)
      | (.failed e, m) => (.failed e, m)
      | (.exhausted, m) => (.exhausted, m) := by
  show x.bind f m = _
  induction x generalizing m with
  | done a => rfl
  | signal s => rfl
  | fail e => rfl
  | exhaust => rfl
  | ask c next ih => exact ih _ _ _
  | inFrame label body next _ ih =>
    simp only [Eval.bind, run]
    split
    · rfl
    · rcases (body m.nextFrame).run (m.enter label) with ⟨_ | _ | _ | _, m'⟩
      · exact ih _ _ _
      all_goals rfl
  | seeSignal x next _ ih =>
    simp only [Eval.bind, run]
    rcases x.run m with ⟨_ | _ | _ | _, m'⟩
    · exact ih _ _ _
    · exact ih _ _ _
    all_goals rfl
  | seeFault x next _ ih =>
    simp only [Eval.bind, run]
    rcases x.run m with ⟨_ | _ | _ | _, m'⟩
    · exact ih _ _ _
    · rfl
    · exact ih _ _ _
    · rfl

theorem run_bind_of_done {x : Eval α} {f : α → Eval β} {m m' : Machine} {a : α}
    (h : x m = (.done a, m')) : (x >>= f) m = f a m' := by
  rw [run_bind, h]

theorem run_bind_eq_done {x : Eval α} {f : α → Eval β} {m m'' : Machine} {b : β} :
    (x >>= f) m = (.done b, m'') ↔ ∃ a m', x m = (.done a, m') ∧ f a m' = (.done b, m'') := by
  rw [run_bind]
  rcases x m with ⟨a | _ | _ | _, m'⟩
  · constructor
    · exact fun h => ⟨a, m', rfl, h⟩
    · rintro ⟨_, _, h, hf⟩
      cases h
      exact hf
  all_goals simp

theorem run_bind_eq_thrown {x : Eval α} {f : α → Eval β} {m m'' : Machine} {s : Signal} :
    (x >>= f) m = (.thrown s, m'') ↔
      x m = (.thrown s, m'') ∨ ∃ a m', x m = (.done a, m') ∧ f a m' = (.thrown s, m'') := by
  rw [run_bind]
  rcases x m with ⟨a | _ | _ | _, m'⟩
  · constructor
    · exact fun h => .inr ⟨a, m', rfl, h⟩
    · rintro (h | ⟨_, _, h, hf⟩)
      · cases h
      · cases h
        exact hf
  all_goals simp

end Eval

end Homoicon
