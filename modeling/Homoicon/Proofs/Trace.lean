import Homoicon.Eval

/-!
# Traces

The moments of a run, in order: every command that is asked, every frame that is entered, refused or
left, every signal, fault and surrender that arises.  A moment knows the machine as it was then.
-/

namespace Homoicon

/-- Something that happens while an evaluation runs, with the machine just before it. -/
inductive Moment : Type 1 where
  | asked {β : Type} (c : Command β) (m : Machine)
  | entered (label : Option String) (m : Machine)
  /-- A frame was not entered, because as many are live as may be. -/
  | refused (m : Machine)
  | left (id : FrameId) (m : Machine)
  | raised (s : Signal) (m : Machine)
  | faulted (f : Fault) (m : Machine)
  | gaveUp (m : Machine)

namespace Moment

def before : Moment → Machine
  | asked _ m | entered _ m | refused m | left _ m | raised _ m | faulted _ m | gaveUp m => m

def after : Moment → Machine
  | asked c m => (c.run m).2
  | entered label m => m.enter label
  | left id m => m.leave id
  | refused m | raised _ m | faulted _ m | gaveUp m => m

def entered? : Moment → Option FrameId
  | entered _ m => some m.nextFrame
  | _ => none

/-- What is known of a moment at once: a frame is entered only while fewer are live than may be,
refused only otherwise, and left only while it is the innermost one. -/
def Possible : Moment → Prop
  | entered _ m => m.depth < m.config.maxDepth
  | refused m => m.config.maxDepth ≤ m.depth
  | left id m => ∃ label rest, m.stack = ⟨id, label⟩ :: rest
  | _ => True

end Moment

/-- Moments that lead from one machine to another without a gap. -/
def Connected (m : Machine) : List Moment → Machine → Prop
  | [], m' => m = m'
  | k :: rest, m' => k.before = m ∧ k.Possible ∧ Connected k.after rest m'

theorem Connected.append {m m' m'' : Machine} {t t' : List Moment} (h : Connected m t m')
    (h' : Connected m' t' m'') : Connected m (t ++ t') m'' := by
  induction t generalizing m with
  | nil =>
    obtain rfl := h
    exact h'
  | cons k rest ih => exact ⟨h.1, h.2.1, ih h.2.2⟩

/-! ### What commands leave alone -/

namespace Machine

variable (m : Machine) (e : Event)

theorem note_eq : ∃ journal, m.note e = { m with journal } := by
  unfold note
  split
  · exact ⟨_, rfl⟩
  · exact ⟨_, rfl⟩

@[simp] theorem note_stack : (m.note e).stack = m.stack := by
  obtain ⟨_, h⟩ := m.note_eq e
  rw [h]

@[simp] theorem note_config : (m.note e).config = m.config := by
  obtain ⟨_, h⟩ := m.note_eq e
  rw [h]

@[simp] theorem note_nextFrame : (m.note e).nextFrame = m.nextFrame := by
  obtain ⟨_, h⟩ := m.note_eq e
  rw [h]

@[simp] theorem note_scopes : (m.note e).scopes = m.scopes := by
  obtain ⟨_, h⟩ := m.note_eq e
  rw [h]

@[simp] theorem assign_scopes (s : ScopeId) (name : String) (v : Value) :
    (m.assign s name v).scopes = m.scopes.assign s name v := rfl

theorem assign_eq (s : ScopeId) (name : String) (v : Value) : ∃ journal,
    m.assign s name v = { m with scopes := m.scopes.assign s name v, journal } := by
  unfold assign
  split
  · exact ⟨m.journal, rfl⟩
  · obtain ⟨journal, h⟩ := m.note_eq (.firstAssignment name)
    rw [h]
    exact ⟨journal, rfl⟩

theorem poll_eq : ∃ countdown interrupt polled journal,
    m.poll.2 = { m with tick := m.tick + 1, countdown, interrupt, polled, journal } := by
  unfold poll
  simp only
  split
  · exact ⟨_, _, _, _, rfl⟩
  · split <;> split
    · obtain ⟨_, h⟩ := note_eq _ _
      exact ⟨_, _, _, _, h⟩
    · exact ⟨_, _, _, _, rfl⟩
    · obtain ⟨_, h⟩ := note_eq _ _
      exact ⟨_, _, _, _, h⟩
    · exact ⟨_, _, _, _, rfl⟩

theorem poll_signal {s : Signal} (h : m.poll.1 = some s) : s = Signal.halt := by
  unfold poll at h
  simp only at h
  split at h
  · cases h
  · split at h
    · split at h
      · cases h
        rfl
      · cases h
    · split at h
      · cases h
        rfl
      · cases h

end Machine

theorem Command.run_frames {β : Type} (c : Command β) (m : Machine) :
    (c.run m).2.stack = m.stack ∧ (c.run m).2.config = m.config ∧
      (c.run m).2.nextFrame = m.nextFrame := by
  cases c with
  | assign scope name v =>
    obtain ⟨_, h⟩ := m.assign_eq scope name v
    rw [Command.run, h]
    exact ⟨rfl, rfl, rfl⟩
  | poll =>
    obtain ⟨_, _, _, _, h⟩ := m.poll_eq
    rw [Command.run, h]
    exact ⟨rfl, rfl, rfl⟩
  | noteState frame state =>
    simp only [Command.run]
    split <;> simp
  | note e => simp [Command.run]
  | _ => exact ⟨rfl, rfl, rfl⟩

namespace Eval

variable {α β : Type}

def trace : {α : Type} → Eval α → Machine → List Moment
  | _, .done _, _ => []
  | _, .signal s, m => [.raised s m]
  | _, .fail f, m => [.faulted f m]
  | _, .exhaust, m => [.gaveUp m]
  | _, .ask c next, m => .asked c m :: (next (c.run m).1).trace (c.run m).2
  | _, .inFrame label body next, m =>
    if m.config.maxDepth ≤ m.depth then [.refused m]
    else
      .entered label m :: (body m.nextFrame).trace (m.enter label) ++
        match (body m.nextFrame).run (m.enter label) with
        | (.done b, m') => .left m.nextFrame m' :: (next b).trace (m'.leave m.nextFrame)
        | (_, m') => [.left m.nextFrame m']
  | _, .seeSignal x next, m =>
    x.trace m ++
      match x.run m with
      | (.done b, m') => (next (.ok b)).trace m'
      | (.thrown s, m') => (next (.error s)).trace m'
      | _ => []
  | _, .seeFault x next, m =>
    x.trace m ++
      match x.run m with
      | (.done b, m') => (next (.ok b)).trace m'
      | (.failed f, m') => (next (.error f)).trace m'
      | _ => []

@[simp] theorem trace_pure (a : α) (m : Machine) : (pure a : Eval α).trace m = [] := rfl

@[simp] theorem trace_command (c : Command β) (m : Machine) :
    (command c).trace m = [.asked c m] := rfl

theorem trace_bind (x : Eval α) (f : α → Eval β) (m : Machine) :
    (x >>= f).trace m =
      x.trace m ++
        match x m with
        | (.done a, m') => (f a).trace m'
        | _ => [] := by
  show (x.bind f).trace m = _
  induction x generalizing m with
  | done a => rfl
  | signal s => rfl
  | fail e => rfl
  | exhaust => rfl
  | ask c next ih =>
    simp only [Eval.bind, trace, run, ih, List.cons_append]
  | inFrame label body next _ ih =>
    simp only [Eval.bind, trace, run]
    split
    · simp
    · rcases (body m.nextFrame).run (m.enter label) with ⟨_ | _ | _ | _, m'⟩ <;> simp [ih]
  | seeSignal x next _ ih =>
    simp only [Eval.bind, trace, run]
    rcases x.run m with ⟨_ | _ | _ | _, m'⟩ <;> simp [ih]
  | seeFault x next _ ih =>
    simp only [Eval.bind, trace, run]
    rcases x.run m with ⟨_ | _ | _ | _, m'⟩ <;> simp [ih]

/-- However an evaluation ends, the frames that were live before it are live after it, and no
others. -/
theorem run_stack (x : Eval α) (m : Machine) : (x m).2.stack = m.stack := by
  induction x generalizing m with
  | done _ => rfl
  | signal _ => rfl
  | fail _ => rfl
  | exhaust => rfl
  | ask c next ih =>
    simp only [run]
    rw [ih, (c.run_frames m).1]
  | inFrame label body next ihb ih =>
    simp only [run]
    split
    · rfl
    · have hb := ihb m.nextFrame (m.enter label)
      have hleave : ∀ m' : Machine, m'.stack = (m.enter label).stack →
          (m'.leave m.nextFrame).stack = m.stack := fun _ h => Machine.stack_leave h
      rcases h : (body m.nextFrame).run (m.enter label) with ⟨_ | _ | _ | _, m'⟩ <;> rw [h] at hb
      · rw [ih, hleave m' hb]
      all_goals exact hleave m' hb
  | seeSignal x next ihx ih =>
    have hx := ihx m
    simp only [run]
    rcases h : x.run m with ⟨_ | _ | _ | _, m'⟩ <;> rw [h] at hx
    · rw [ih, hx]
    · rw [ih, hx]
    all_goals exact hx
  | seeFault x next ihx ih =>
    have hx := ihx m
    simp only [run]
    rcases h : x.run m with ⟨_ | _ | _ | _, m'⟩ <;> rw [h] at hx
    · rw [ih, hx]
    · exact hx
    · rw [ih, hx]
    · exact hx

theorem trace_connected (x : Eval α) (m : Machine) : Connected m (x.trace m) (x m).2 := by
  induction x generalizing m with
  | done _ => rfl
  | signal _ => exact ⟨rfl, trivial, rfl⟩
  | fail _ => exact ⟨rfl, trivial, rfl⟩
  | exhaust => exact ⟨rfl, trivial, rfl⟩
  | ask c next ih => exact ⟨rfl, trivial, ih _ _⟩
  | inFrame label body next ihb ih =>
    simp only [run, trace]
    split
    · exact ⟨rfl, ‹_›, rfl⟩
    · rename_i hroom
      refine ⟨rfl, Nat.lt_of_not_le hroom, ?_⟩
      have hb := ihb m.nextFrame (m.enter label)
      have hs := run_stack (body m.nextFrame) (m.enter label)
      have hleft : ∀ m' : Machine, m'.stack = (m.enter label).stack →
          (Moment.left m.nextFrame m').Possible :=
        fun m' h => ⟨label, m.stack, h⟩
      rcases h : (body m.nextFrame).run (m.enter label) with ⟨_ | _ | _ | _, m'⟩ <;>
        rw [h] at hb hs <;> refine hb.append ⟨rfl, hleft m' hs, ?_⟩
      · exact ih _ _
      all_goals rfl
  | seeSignal x next ihx ih =>
    have hx := ihx m
    simp only [run, trace]
    rcases h : x.run m with ⟨_ | _ | _ | _, m'⟩ <;> rw [h] at hx
    · exact hx.append (ih _ _)
    · exact hx.append (ih _ _)
    all_goals simpa using hx
  | seeFault x next ihx ih =>
    have hx := ihx m
    simp only [run, trace]
    rcases h : x.run m with ⟨_ | _ | _ | _, m'⟩ <;> rw [h] at hx
    · exact hx.append (ih _ _)
    · simpa using hx
    · exact hx.append (ih _ _)
    · simpa using hx

end Eval

end Homoicon
