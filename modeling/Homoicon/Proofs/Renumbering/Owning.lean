import Homoicon.Proofs.Life
import Homoicon.Proofs.Renumbering.Tracks

/-!
# What a machine has handed out

The numbers that a machine holds, in its scopes and feeds and in the arguments of its frames, have
been handed out before.  So they are in a new session, and whatever code runs then, as long as the
code holds no other numbers.
-/

namespace Homoicon

/-- The machine has handed out every number that it holds, and every one in the given code. -/
def Machine.Owns (m : Machine) (items : List Value) : Prop :=
  ∀ ρ : Renumbering, ρ.Extends .same m → m.Matches ρ m ∧ Value.AllMatch ρ items items

namespace Machine.Owns

variable {α : Type} {m : Machine} {items : List Value} {ρ : Renumbering}

theorem numberless (h : m.Owns []) (hitems : Value.allNumberless items = true) : m.Owns items :=
  fun ρ hρ => ⟨(h ρ hρ).1, Value.allMatch_of_numberless ρ items hitems⟩

theorem journal (h : m.Owns items) (journal : Array Event) : Owns { m with journal } items :=
  fun ρ hρ => ⟨(h ρ ⟨hρ.frame, hρ.identity⟩).1.journal _ _, (h ρ ⟨hρ.frame, hρ.identity⟩).2⟩

/-- Code that does the same under other numbers, as long as these are not handed out yet, leaves a
machine that has handed out every number it holds. -/
theorem run (h : m.Owns []) {x : Eval α} {Q : Renumbering → α → α → Prop}
    (hx : ∀ ρ : Renumbering, ρ.Extends .same m → ρ.Holds (Q ρ) x x) : (x m).2.Owns [] := by
  have track : Renumbering.same.Tracks m m :=
    ⟨fun ρ hρ => (h ρ hρ).1, fun _ _ => rfl, fun _ _ => rfl⟩
  exact fun ρ hρ => ⟨(track.run hx).1.same ρ hρ, .nil⟩

theorem new (config : Config) (listening : Bool) :
    Owns { Machine.new config with listening } [] := by
  refine fun ρ _ => ⟨?_, .nil⟩
  have hscope : ∀ s, Scope.Matches ρ (Scopes.scope {} s) (Scopes.scope {} s) := fun s => ⟨.nil, rfl⟩
  exact
    { config := rfl, tick := rfl, countdown := rfl, interrupt := rfl, hook := rfl, polled := rfl
      labels := rfl, size := rfl, snapshots := .nil, printed := .refl _
      scopes := ⟨rfl, hscope⟩
      feeds := fun _ => ⟨.nil, rfl, .none, rfl, rfl⟩ }

end Machine.Owns

/-! ### Sessions -/

theorem Renumbering.nativeAction {ρ : Renumbering} (n : Native) (signature : Identity) :
    ExceptRel (Fault.Matches ρ) (Action.Matches ρ) (n.action signature)
      (n.action (ρ.identity signature)) := by
  unfold Native.action
  split
  · exact .error (.refl _)
  · refine (Spec.Reads.same _).bind fun spec _ hspec => ?_
    subst hspec
    have plain : Action.Matches ρ _ _ := .mk (some n.name) spec.params signature (.native n) .none
      false .none spec.description
    dsimp only
    split
    · exact Renumbering.enfixWith plain
    · exact .ok plain

namespace Renumbering.Holds

variable {ρ : Renumbering} {scope : ScopeId}

theorem forM {α : Type} {f : α → Eval Unit} {l : List α}
    (h : ∀ a ∈ l, ρ.Holds (fun _ _ => True) (f a) (f a)) :
    ρ.Holds (fun _ _ => True) (l.forM f) (l.forM f) := by
  induction l with
  | nil => exact .ret trivial
  | cons a l ih =>
    obtain ⟨ha, hl⟩ := List.forall_mem_cons.1 h
    exact ha.bind fun _ _ _ => ih hl

theorem defineIn (n : Native) :
    ρ.Holds (fun _ _ => True) (n.defineIn scope) (n.defineIn scope) := by
  refine Holds.freshIdentity.bind fun signature _ hs => ?_
  subst hs
  refine (Holds.ofExcept (nativeAction n signature)).bind fun a a' ha => ?_
  refine Holds.freshIdentity.bind fun id _ hid => ?_
  subst hid
  exact .define (.action id ha)

theorem defineOperator (o : Operator) :
    ρ.Holds (fun _ _ => True) (Registry.defineOperator scope o) (Registry.defineOperator scope o) := by
  unfold Registry.defineOperator
  refine Holds.lookup.bind fun v v' hv => ?_
  cases hv with
  | none => exact .failWith (.refl _)
  | some hv =>
    cases hv with
    | action id ha =>
      refine (Holds.ofExcept (enfixWith ha)).bind fun b b' hb => ?_
      refine Holds.freshIdentity.bind fun id _ hid => ?_
      subst hid
      cases hb with
      | mk label params signature d e enfixed deferral description =>
        exact .define (.action _ (.mk (some o.symbol) params signature d e enfixed deferral description))
    | _ => exact .failWith (.refl _)

theorem install (r : Registry) :
    ρ.Holds (fun _ _ => True) (r.install scope) (r.install scope) := by
  refine Holds.bind (P := fun _ _ => True) ?_ fun _ _ _ =>
    (Holds.forM fun n _ => defineIn n).bind fun _ _ _ =>
    (Holds.forM fun o _ => defineOperator o).bind fun _ _ _ => Holds.note
  refine (Holds.define .null).bind fun _ _ _ => (Holds.define (.logic true)).bind fun _ _ _ =>
    (Holds.define (.logic false)).bind fun _ _ _ => ?_
  exact Holds.forM fun k _ => Holds.define (.datatype k)

theorem prepare (r : Registry) : ρ.Holds Eq (Session.prepare r) (Session.prepare r) := by
  refine Holds.newScope.bind fun lib _ hlib => ?_
  subst hlib
  refine (install r).bind fun _ _ _ => ?_
  refine Holds.newScope.bind fun user _ huser => ?_
  subst huser
  exact .ret rfl

end Renumbering.Holds

namespace Session

theorem withRegistry_owns {c : Config} {r : Registry} {listening : Bool} {s : Session}
    (h : withRegistry c r listening = .ok s) : s.machine.Owns [] := by
  obtain ⟨e, hs⟩ := Session.withRegistry_eq_ok h
  rw [hs]
  have hm : (prepare r { Machine.new c with listening }).2.Owns [] :=
    (Machine.Owns.new c listening).run fun ρ _ => Renumbering.Holds.prepare r
  generalize (prepare r { Machine.new c with listening }).2 = m at hm
  obtain ⟨journal, hnote⟩ := m.note_eq e
  rw [hnote]
  exact hm.journal journal

end Session

/-- A request that runs code brings no numbers into a session but those that its code holds. -/
theorem HostRequest.serve_owns {s : Session} {r : HostRequest} {units : List Value}
    (hcode : r.code? = some units) (h : s.machine.Owns units) : (r.serve s).machine.Owns [] := by
  obtain ⟨journal, hserve⟩ := serve_machine s hcode
  rw [hserve]
  have hm : s.machine.Owns [] := fun ρ hρ => ⟨(h ρ hρ).1, .nil⟩
  have hleft : ((s.evaluator.runUnits units s.user) s.machine).2.Owns [] := hm.run fun ρ hρ =>
    (ρ.nested_of_steps (ρ.steps_stepWithin _ _)).runUnits (h ρ hρ).2
  exact hleft.journal journal

end Homoicon
