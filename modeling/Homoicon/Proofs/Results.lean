import Homoicon.Eval

/-!
# Results of evaluations

`x.Returns Q` says that every result of `x` satisfies `Q`, whatever machine it is run on.  Signals
and faults give no result, so nothing is said of them.  In the same way `x.ThrowsOnly P` says that
every signal that gets out of `x` satisfies `P`.
-/

namespace Homoicon

def Outcome.result? {α : Type} : Outcome α → Option α
  | .done a => some a
  | _ => none

theorem except_toOption_eq_some {ε α : Type} {x : Except ε α} {a : α} :
    x.toOption = some a ↔ x = .ok a := by
  cases x <;> simp [Except.toOption]

theorem except_bind_eq_ok {ε α β : Type} {x : Except ε α} {f : α → Except ε β} {b : β} :
    (x >>= f) = .ok b ↔ ∃ a, x = .ok a ∧ f a = .ok b := by
  cases x with
  | error e => simp [bind, Except.bind]
  | ok a => simp [bind, Except.bind]

namespace Eval

variable {α β : Type} {x : Eval α} {f : α → Eval β} {P : α → Prop} {Q : β → Prop}

def Returns (x : Eval α) (P : α → Prop) : Prop := ∀ m a m', x m = (.done a, m') → P a

theorem Returns.pure {a : α} (h : P a) : (pure a : Eval α).Returns P := by
  rintro _ _ _ ⟨⟩
  exact h

theorem Returns.fail {e : Fault} : (fail e : Eval α).Returns P := by
  rintro _ _ _ ⟨⟩

theorem Returns.ofExcept {e : Except Fault α} (h : ∀ a, e = .ok a → P a) :
    (ofExcept e).Returns P := by
  cases e with
  | error _ => exact .fail
  | ok a => exact .pure (h a rfl)

theorem Returns.bind (hx : x.Returns P) (hf : ∀ a, P a → (f a).Returns Q) :
    (x >>= f).Returns Q := by
  intro m b m'' h
  obtain ⟨a, m', ha, hb⟩ := run_bind_eq_done.1 h
  exact hf a (hx m a m' ha) m' b m'' hb

theorem Returns.after (hf : ∀ a, (f a).Returns Q) : (x >>= f).Returns Q :=
  Returns.bind (P := fun _ => True) (fun _ _ _ _ => trivial) fun a _ => hf a

theorem Returns.mono {R : α → Prop} (hx : x.Returns P) (h : ∀ a, P a → R a) : x.Returns R :=
  fun m a m' ha => h a (hx m a m' ha)

theorem catchSignal_eq_done {m m' : Machine} {r : Except Signal α}
    (h : x.catchSignal m = (.done r, m')) :
    (∃ a, r = .ok a ∧ x m = (.done a, m')) ∨ ∃ s, r = .error s ∧ x m = (.thrown s, m') := by
  revert h
  simp only [catchSignal, run]
  rcases x.run m with ⟨a | s | _ | _, _⟩
  · rintro ⟨⟩
    exact .inl ⟨a, rfl, rfl⟩
  · rintro ⟨⟩
    exact .inr ⟨s, rfl, rfl⟩
  · simp
  · simp

/-! ### Signals that get out -/

def ThrowsOnly (P : Signal → Prop) (x : Eval α) : Prop := ∀ m s m', x m = (.thrown s, m') → P s

variable {R : Signal → Prop}

theorem ThrowsOnly.pure {a : α} : ThrowsOnly R (pure a : Eval α) := by
  rintro _ _ _ ⟨⟩

theorem ThrowsOnly.fail {e : Fault} : ThrowsOnly R (fail e : Eval α) := by
  rintro _ _ _ ⟨⟩

theorem ThrowsOnly.exhaust : ThrowsOnly R (exhaust : Eval α) := by
  rintro _ _ _ ⟨⟩

theorem ThrowsOnly.command {c : Command β} : ThrowsOnly R (command c) := by
  rintro _ _ _ ⟨⟩

theorem ThrowsOnly.ofExcept {e : Except Fault α} : ThrowsOnly R (ofExcept e) := by
  cases e with
  | error _ => exact .fail
  | ok _ => exact .pure

theorem ThrowsOnly.bind (hx : ThrowsOnly R x) (hf : ∀ a, ThrowsOnly R (f a)) :
    ThrowsOnly R (x >>= f) := by
  intro m s m'' h
  obtain h | ⟨a, m', -, h⟩ := run_bind_eq_thrown.1 h
  · exact hx m s m'' h
  · exact hf a m' s m'' h

theorem ThrowsOnly.handle {taker : Taker} {x : Eval α} {take : Signal → Eval α}
    (hR : ∀ s, taker.takes s = false → R s) (htake : ∀ s, ThrowsOnly R (take s)) :
    ThrowsOnly R (x.handle taker take) := by
  unfold Eval.handle
  refine .bind ?_ fun r => ?_
  · intro m s m' h
    simp only [catchSignal, run] at h
    rcases hrun : x.run m with ⟨_ | _ | _ | _, m''⟩ <;> rw [hrun] at h <;> cases h
  · cases r with
    | ok a => exact .pure
    | error s =>
      dsimp only
      split
      · exact .bind .command fun _ => htake s
      · rename_i htakes
        rintro _ _ _ ⟨⟩
        exact hR s (by simpa using htakes)

theorem run_of_result? {m : Machine} {a : α} (h : (x m).1.result? = some a) :
    x m = (.done a, (x m).2) := by
  revert h
  rcases x m with ⟨_ | _ | _ | _, m'⟩
  · rintro ⟨⟩
    rfl
  all_goals simp [Outcome.result?]

end Eval

end Homoicon
