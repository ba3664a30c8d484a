import Homoicon.Proofs.Renumbering.Steps

/-!
# Runs that hand out their numbers apart

While two runs do the same, the numbers they hand out keep the same distance, so one renumbering
follows both.  What both have handed out so far is settled; a renumbering may go on from there as it
likes.
-/

namespace Homoicon

namespace Renumbering

/-- Everything keeps its number. -/
def same : Renumbering := ⟨id, id, strictMono_id, strictMono_id⟩

/-- What the machine has handed out so far gets the same numbers. -/
structure Extends (ρ σ : Renumbering) (m : Machine) : Prop where
  frame : ∀ n : Nat, n < m.nextFrame → ρ.frame n = σ.frame n
  identity : ∀ n : Nat, n < m.nextIdentity → ρ.identity n = σ.identity n

namespace Extends

variable {ρ σ τ : Renumbering} {m m' : Machine}

theorem refl (σ : Renumbering) (m : Machine) : σ.Extends σ m := ⟨fun _ _ => rfl, fun _ _ => rfl⟩

theorem trans (h : ρ.Extends σ m) (h' : σ.Extends τ m) : ρ.Extends τ m :=
  ⟨fun n hn => (h.frame n hn).trans (h'.frame n hn),
    fun n hn => (h.identity n hn).trans (h'.identity n hn)⟩

theorem of_precedes (h : ρ.Extends σ m') (hm : m.Precedes m') : ρ.Extends σ m :=
  ⟨fun n hn => h.frame n (Nat.lt_of_lt_of_le hn hm.1),
    fun n hn => h.identity n (Nat.lt_of_lt_of_le hn hm.2)⟩

end Extends

/-- The machines match, however the renumbering goes on, and it goes on as their counters do. -/
structure Tracks (σ : Renumbering) (m m' : Machine) : Prop where
  same : ∀ ρ : Renumbering, ρ.Extends σ m → m.Matches ρ m'
  frames : ∀ n : Nat, m.nextFrame ≤ n → σ.frame n + m.nextFrame = n + m'.nextFrame
  identities : ∀ n : Nat, m.nextIdentity ≤ n → σ.identity n + m.nextIdentity = n + m'.nextIdentity

namespace Tracks

variable {ρ σ : Renumbering} {α : Type} {m m' : Machine}

theorem relates (h : σ.Tracks m m') {e : Machine} (hρ : ρ.Extends σ e) (he : m.Precedes e) :
    ρ.Relates e m m' where
  same := h.same ρ (hρ.of_precedes he)
  frames n hn hlt := by
    rw [hρ.frame n hlt]
    exact h.frames n hn
  identities n hn hlt := by
    rw [hρ.identity n hlt]
    exact h.identities n hn

/-- Evaluations that come to the same however the renumbering of their machines goes on are followed
by it. -/
theorem run (h : σ.Tracks m m') {x x' : Eval α} {Q : Renumbering → α → α → Prop}
    (hx : ∀ ρ : Renumbering, ρ.Extends σ m → ρ.Holds (Q ρ) x x') :
    σ.Tracks (x m).2 (x' m').2 ∧
      ∀ ρ : Renumbering, ρ.Extends σ (x m).2 → (x m).1.Matches ρ (Q ρ) (x' m').1 := by
  have hle := x.precedes_run m
  have hrun : ∀ (ρ : Renumbering) (e : Machine), ρ.Extends σ e → (x m).2.Precedes e →
      (x m).1.Matches ρ (Q ρ) (x' m').1 ∧ ρ.Relates e (x m).2 (x' m').2 :=
    fun ρ e hρ he => hx ρ (hρ.of_precedes (hle.trans he)) (h.relates hρ (hle.trans he)) he
  refine ⟨⟨fun ρ hρ => (hrun ρ _ hρ ⟨Nat.le_refl _, Nat.le_refl _⟩).2.same, ?_, ?_⟩,
    fun ρ hρ => (hrun ρ _ hρ ⟨Nat.le_refl _, Nat.le_refl _⟩).1⟩
  · -- how far the counters are apart shows in the numbers that are handed out next
    intro n hn
    let e : Machine := { (x m).2 with nextFrame := n + 1 }
    have he : (x m).2.Precedes e := ⟨Nat.le_succ_of_le hn, Nat.le_refl _⟩
    exact (hrun σ e (.refl σ e) he).2.frames n hn (Nat.lt_succ_self n)
  · intro n hn
    let e : Machine := { (x m).2 with nextIdentity := n + 1 }
    have he : (x m).2.Precedes e := ⟨Nat.le_refl _, Nat.le_succ_of_le hn⟩
    exact (hrun σ e (.refl σ e) he).2.identities n hn (Nat.lt_succ_self n)

end Tracks

/-- The renumbering with one frame more in the other run before the frame `k`. -/
def skipFrame (σ : Renumbering) (k : Nat) : Renumbering :=
  { σ with
    frame := fun n => if n < k then σ.frame n else σ.frame n + 1
    frame_lt := by
      intro a b hab
      have hlt := σ.frame_lt hab
      dsimp only
      split <;> split <;> omega }

/-- The renumbering with one identity more in the other run before the identity `k`. -/
def skipIdentity (σ : Renumbering) (k : Nat) : Renumbering :=
  { σ with
    identity := fun n => if n < k then σ.identity n else σ.identity n + 1
    identity_lt := by
      intro a b hab
      have hlt := σ.identity_lt hab
      dsimp only
      split <;> split <;> omega }

theorem extends_skipFrame (σ : Renumbering) (m : Machine) : (σ.skipFrame m.nextFrame).Extends σ m :=
  ⟨fun _ hn => if_pos hn, fun _ _ => rfl⟩

theorem extends_skipIdentity (σ : Renumbering) (m : Machine) :
    (σ.skipIdentity m.nextIdentity).Extends σ m :=
  ⟨fun _ _ => rfl, fun _ hn => if_pos hn⟩

theorem Tracks.reenter {σ : Renumbering} {m m' : Machine} (h : σ.Tracks m m') {id : FrameId}
    {label : Option String} {rest : List Activation} (hstack : m'.stack = ⟨id, label⟩ :: rest) :
    (σ.skipFrame m.nextFrame).Tracks m ((m'.leave id).enter label) := by
  refine ⟨fun ρ hρ => ?_, fun n hn => ?_, h.identities⟩
  · have hm := h.same ρ (hρ.trans (σ.extends_skipFrame m))
    have hlabels : ((m'.leave id).enter label).stack.map (·.label) = m'.stack.map (·.label) := by
      show label :: (m'.leave id).stack.map (·.label) = _
      rw [Machine.stack_leave hstack, hstack]
      rfl
    exact { hm with labels := hlabels.trans hm.labels }
  · have hframes := h.frames n hn
    show (if n < m.nextFrame then σ.frame n else σ.frame n + 1) + _ = n + (m'.nextFrame + 1)
    rw [if_neg (Nat.not_lt.2 hn)]
    omega

end Renumbering

end Homoicon
