import Homoicon.Proofs.Delivery
import Homoicon.Proofs.Mirror
import Homoicon.Proofs.Redoing

/-!
# Definitional return

A return is addressed to one activation.  Frames that are entered while the activation runs have
later numbers, so nothing nested in it takes its return, whatever lies between.  The body of a
function waits for the return and ends with its payload.  The prelude of an adaptation runs in the
same activation and has the same return at hand, but there nothing waits for it: the call ends and
the return goes on as a signal that nothing can take any more.
-/

namespace Homoicon

/-! ### Frames over frames -/

/-- The frames of `m₀` are live on `m`, under frames that were entered later. -/
def Machine.Under (m₀ m : Machine) : Prop :=
  ∃ above, m.stack = above ++ m₀.stack ∧ ∀ a ∈ above, m₀.nextFrame ≤ a.id

namespace Machine.Under

variable {m₀ m₁ m : Machine}

theorem of_stack (h : m.stack = m₀.stack) : m₀.Under m := ⟨[], h, by simp⟩

theorem earlier (h : m₁.Under m) (hs : m₁.stack = m₀.stack) (hn : m₀.nextFrame ≤ m₁.nextFrame) :
    m₀.Under m := by
  obtain ⟨above, hstack, hids⟩ := h
  have hids₀ : ∀ a ∈ above, m₀.nextFrame ≤ a.id := fun a ha => Nat.le_trans hn (hids a ha)
  exact ⟨above, hs ▸ hstack, hids₀⟩

theorem of_entered {label : Option String} (h : (m₀.enter label).Under m) : m₀.Under m := by
  obtain ⟨above, hstack, hids⟩ := h
  refine ⟨above ++ [⟨m₀.nextFrame, label⟩], ?_, ?_⟩
  · rw [hstack]
    simp [Machine.enter]
  · intro a ha
    rcases List.mem_append.1 ha with ha | ha
    · exact Nat.le_of_succ_le (hids a ha)
    · have hid : a.id = m₀.nextFrame := congrArg Activation.id (List.mem_singleton.1 ha)
      exact Nat.le_of_eq hid.symm

end Machine.Under

namespace Eval

variable {α β : Type}

theorem nextFrame_le_run (x : Eval α) (m : Machine) : m.nextFrame ≤ (x m).2.nextFrame := by
  rw [(x.trace_connected m).entered.1]
  exact Nat.le_add_right _ _

theorem trace_under (x : Eval α) (m : Machine) : ∀ k ∈ x.trace m, m.Under k.before := by
  have self : ∀ m : Machine, m.Under m := fun m => .of_stack rfl
  -- what comes after `y` runs with the same frames live, and with later numbers for new ones
  have after : ∀ {γ : Type} (y : Eval γ) (m n : Machine), (y m).2.Under n → m.Under n :=
    fun y m n h => h.earlier (y.run_stack m) (y.nextFrame_le_run m)
  induction x generalizing m with
  | done _ => simp [trace]
  | signal s =>
    intro k hk
    rw [List.mem_singleton.1 hk]
    exact self m
  | fail f =>
    intro k hk
    rw [List.mem_singleton.1 hk]
    exact self m
  | exhaust =>
    intro k hk
    rw [List.mem_singleton.1 hk]
    exact self m
  | ask c next ih =>
    intro k hk
    rcases List.mem_cons.1 hk with rfl | hk
    · exact self m
    · exact after (Eval.command c) m _ (ih _ _ k hk)
  | inFrame label body next ihb ih =>
    intro k hk
    simp only [trace] at hk
    split at hk
    · rw [List.mem_singleton.1 hk]
      exact self m
    · have hstack := (body m.nextFrame).run_stack (m.enter label)
      have hnext := (body m.nextFrame).nextFrame_le_run (m.enter label)
      have hleft : ∀ n, n.stack = (m.enter label).stack → m.Under n :=
        fun n hn => .of_entered (.of_stack hn)
      rcases List.mem_cons.1 hk with rfl | hk
      · exact self m
      rcases List.mem_append.1 hk with hk | hk
      · exact .of_entered (ihb _ _ k hk)
      · rcases hrun : (body m.nextFrame).run (m.enter label) with ⟨b | _ | _ | _, m'⟩ <;>
          rw [hrun] at hk hstack hnext
        · rcases List.mem_cons.1 hk with rfl | hk
          · exact hleft m' hstack
          · have hle : m.nextFrame ≤ m'.nextFrame := Nat.le_of_succ_le hnext
            exact (ih b _ k hk).earlier (Machine.stack_leave hstack) hle
        all_goals
          rw [List.mem_singleton.1 hk]
          exact hleft m' hstack
  | seeSignal x next ihx ih =>
    intro k hk
    simp only [trace] at hk
    rcases List.mem_append.1 hk with hk | hk
    · exact ihx m k hk
    · have hafter := after x m
      rcases hrun : x.run m with ⟨b | s | _ | _, m'⟩ <;> rw [hrun] at hk hafter
      · exact hafter _ (ih _ _ k hk)
      · exact hafter _ (ih _ _ k hk)
      all_goals cases hk
  | seeFault x next ihx ih =>
    intro k hk
    simp only [trace] at hk
    rcases List.mem_append.1 hk with hk | hk
    · exact ihx m k hk
    · have hafter := after x m
      rcases hrun : x.run m with ⟨b | _ | f | _, m'⟩ <;> rw [hrun] at hk hafter
      · exact hafter _ (ih _ _ k hk)
      · cases hk
      · exact hafter _ (ih _ _ k hk)
      · cases hk

/-- No signal comes up. -/
def Silent (x : Eval α) : Prop := ∀ m, ∀ k ∈ x.trace m, k.raises? = none

namespace Silent

theorem pure (a : α) : Silent (Pure.pure a) := by
  intro m k hk
  cases hk

theorem command {c : Command β} (h : ∀ m, (Moment.asked c m).raises? = none) :
    Silent (Eval.command c) := by
  intro m k hk
  rw [List.mem_singleton.1 hk]
  exact h m

theorem ofExcept (x : Except Fault α) : Silent (Eval.ofExcept x) := by
  intro m k hk
  cases x with
  | error f =>
    rw [List.mem_singleton.1 hk]
    rfl
  | ok a => cases hk

theorem bind {x : Eval α} {f : α → Eval β} (hx : x.Silent) (hf : ∀ a, (f a).Silent) :
    Silent (x >>= f) := by
  intro m k hk
  rw [trace_bind] at hk
  rcases List.mem_append.1 hk with hk | hk
  · exact hx m k hk
  · rcases hrun : x m with ⟨a | _ | _ | _, m'⟩ <;> rw [hrun] at hk
    · exact hf a m' k hk
    all_goals cases hk

end Silent

variable {x : Eval α} {f : α → Eval β} {m : Machine} {before after : List Moment} {k : Moment}
  {s : Signal}

end Eval

/-! ### Returns out of nested code -/

theorem Moment.Takes.activation {past : List Moment} {k : Moment} {s : Signal} {id : FrameId}
    (h : k.Takes past s) (hs : s.label = .returnTo id) :
    ∃ label rest, k.before.stack = ⟨id, label⟩ :: rest := by
  cases k with
  | asked c n =>
    cases c with
    | mark mark =>
      cases mark with
      | operation _ _ => cases h
      | taken taker s' =>
        obtain ⟨rfl, htakes, cur, hknown, hstands⟩ := h
        cases taker with
        | loop body => simp [Taker.takes, hs] at htakes
        | catching names => simp [Taker.takes, catches, hs] at htakes
        | activation id' =>
          simp only [Taker.takes, Signal.isReturnTo, hs, beq_iff_eq] at htakes
          subst htakes
          exact hknown.frame id hstands
    | _ => cases h
  | _ => cases h

namespace Evaluator

variable {ev : Evaluator} {m : Machine} {before after : List Moment} {k : Moment} {s : Signal}
  {id : FrameId}

end Evaluator

/-! ### Functions and their adaptations -/

mutual

/-- The action is a function, or was made from one by adapting it. -/
def Action.IsFunction : Action → Prop
  | .mk _ _ _ dispatcher _ _ _ _ => dispatcher.IsFunction

def Dispatcher.IsFunction : Dispatcher → Prop
  | .interpreted _ _ => True
  | .adapted _ _ adaptee => adaptee.IsFunction
  | _ => False

end

theorem Action.IsFunction.dispatcher {a : Action} (h : a.IsFunction) : a.dispatcher.IsFunction := by
  cases a
  exact h

def Machine.callFrame (m : Machine) (feed : FeedId) : Frame := { id := m.nextFrame, feed }

def Machine.calling (m : Machine) (p : PendingCall) : Machine :=
  (m.enter (some p.label)).note (.invoked p.label m.nextFrame p.left.isSome)

namespace Evaluator

variable {ev : Evaluator} {frame : Frame} {checked : Bool} {s s₀ s' : CallPoint}

end Evaluator

end Homoicon
