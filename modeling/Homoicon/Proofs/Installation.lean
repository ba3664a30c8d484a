import Homoicon.Proofs.Defaulting
import Homoicon.Proofs.Results
import Homoicon.Session

/-!
# Installing a registry

To install a registry is to read the specs of all its operations.  If they can be read, and if each
operation with an operator for it names an argument first, then the installation succeeds and binds
every name to what its spec describes.  `Registry.bindIn` does that and leaves the specs to whoever
looks at the actions.
-/

namespace Homoicon

/-! ### Binding without reading -/

def Native.described (n : Native) (signature : Identity) : Action :=
  (n.action signature).toOption.getD default

def Native.bindIn (n : Native) (scope : ScopeId) : Eval Unit := do
  let signature ← Eval.freshIdentity
  let id ← Eval.freshIdentity
  Eval.define scope n.name (.action id (n.described signature))

def Operator.bindIn (o : Operator) (scope : ScopeId) : Eval Unit := do
  match ← Eval.lookup scope o.target with
  | some (.action _ a) =>
    let id ← Eval.freshIdentity
    Eval.define scope o.symbol
      (.action id { a with enfixed := true, deferral := .none, label := some o.symbol })
  | _ => Eval.failWith (.notAction o.target)

def Registry.bindIn (r : Registry) (scope : ScopeId) : Eval Unit := do
  defineConstants scope
  r.natives.forM fun n => n.bindIn scope
  r.operators.forM fun o => o.bindIn scope
  Eval.note (.installed r.natives.length r.operators.length)

namespace Session

def prepareUnread (r : Registry) : Eval (ScopeId × ScopeId) := do
  let lib ← Eval.newScope none
  r.bindIn lib
  let user ← Eval.newScope (some lib)
  return (lib, user)

def ofPrepared (config : Config) (r : Registry) :
    Outcome (ScopeId × ScopeId) × Machine → Except HostError Session
  | (.done (lib, user), m) =>
    .ok { machine := m.note (.ready config.maxDepth config.pollInterval r.size), lib, user }
  | (.failed f, _) => .error (.fault f)
  | (.thrown s, _) => .error (.signal s)
  | (.exhausted, _) => .error .exhausted

/-- A session as `Session.withRegistry` starts it, without reading a spec. -/
def unread (config : Config) (r : Registry) (listening : Bool) : Except HostError Session :=
  ofPrepared config r (prepareUnread r { Machine.new config with listening })

end Session

/-! ### What is needed of the specs -/

/-- Whether the action names an argument first, so that it can be enfixed. -/
def Action.leads (a : Action) : Bool := a.firstParam?.any fun p => p.role != .refinement

/-- Whether the spec can be read and, if an operator stands for the operation, names an argument
first. -/
def Native.isInstallable (n : Native) (operators : List Operator) : Bool :=
  (n.action 0).toOption.any fun a => a.leads || operators.all fun o => o.target != n.name

theorem Action.enfixWith_signature (a : Action) (signature : Identity) (deferral : Deferral) :
    { a with signature }.enfixWith deferral =
      (a.enfixWith deferral).map fun b => { b with signature } := by
  have hfirst : { a with signature }.firstParam? = a.firstParam? := rfl
  simp only [enfixWith, hfirst]
  split <;> rfl

/-- Only the identity of its parameter list comes to an action from elsewhere. -/
theorem Native.action_signature (n : Native) (signature : Identity) :
    n.action signature = (n.action 0).map fun a => { a with signature } := by
  unfold action
  cases Source.scan n.spec with
  | error e => rfl
  | ok items =>
    simp only [bind, Except.bind]
    cases Spec.read items with
    | error e => rfl
    | ok spec =>
      cases n.enfix with
      | none => rfl
      | some deferral =>
        let a : Action :=
          { label := some n.name, params := spec.params, signature := 0, dispatcher := .native n
            exemplar := none, enfixed := false, deferral := .none, description := spec.description }
        exact a.enfixWith_signature signature deferral

theorem Native.described_of_installable {n : Native} {operators : List Operator}
    (h : n.isInstallable operators = true) (signature : Identity) :
    n.action signature = .ok (n.described signature) ∧
      ∀ o ∈ operators, o.target = n.name → (n.described signature).leads = true := by
  obtain ⟨a, ha, hleads⟩ := (Option.any_eq_true _ _).1 h
  have hmade : n.action signature = .ok { a with signature } := by
    rw [action_signature, except_toOption_eq_some.1 ha]
    rfl
  have hdescribed : n.described signature = { a with signature } := by
    rw [described, hmade]
    rfl
  refine ⟨by rw [hmade, hdescribed], fun o ho htarget => ?_⟩
  rw [hdescribed]
  rcases Bool.or_eq_true_iff.1 hleads with hleads | hfree
  · exact hleads
  · have hne := List.all_eq_true.1 hfree o ho
    simp [htarget] at hne

/-! ### Both installations do the same -/

namespace Registry

section

variable {P : Machine → Prop} {x y x' y' : Eval Unit}

/-- From machines with the property `P` both evaluations do the same, and a result leaves such a
machine behind. -/
def Likewise (P : Machine → Prop) (x y : Eval Unit) : Prop :=
  ∀ m, P m → x m = y m ∧ ∀ m', y m = (.done (), m') → P m'

theorem Likewise.refl (h : ∀ m m', P m → x m = (.done (), m') → P m') : Likewise P x x :=
  fun m hm => ⟨rfl, fun m' => h m m' hm⟩

theorem Likewise.bind (h : Likewise P x y) (h' : Likewise P x' y') :
    Likewise P (x >>= fun _ => x') (y >>= fun _ => y') := by
  intro m hm
  obtain ⟨heq, hkeeps⟩ := h m hm
  rw [Eval.run_bind, Eval.run_bind, heq]
  rcases hrun : y m with ⟨_ | _ | _ | _, m'⟩
  · exact h' m' (hkeeps m' hrun)
  all_goals
    refine ⟨rfl, fun m'' hdone => ?_⟩
    cases hdone

theorem Likewise.forM {α : Type} {f g : α → Eval Unit} {as : List α}
    (h : ∀ a ∈ as, Likewise P (f a) (g a)) : Likewise P (as.forM f) (as.forM g) := by
  induction as with
  | nil =>
    refine .refl fun m m' hm hrun => ?_
    cases hrun
    exact hm
  | cons a as ih =>
    exact (h a List.mem_cons_self).bind (ih fun b hb => h b (List.mem_cons_of_mem a hb))

end

/-- Where the target of an operator is bound to an action, the action can be enfixed. -/
def Spells (operators : List Operator) (m : Machine) : Prop :=
  ∀ o ∈ operators, ∀ s id a,
    (m.scopes.bindings s).get? o.target = some (.action id a) → a.leads = true

section

variable {operators : List Operator} {scope : ScopeId}

theorem Spells.lookup {m : Machine} (h : Spells operators m) {o : Operator} (ho : o ∈ operators)
    {id : Identity} {a : Action} (ha : m.lookup scope o.target = some (.action id a)) :
    a.leads = true := by
  obtain ⟨s, -, hs⟩ := List.exists_of_findSome?_eq_some ha
  exact h o ho s id a hs

theorem Spells.define {m : Machine} (h : Spells operators m) {name : String} {v : Value}
    (hv : ∀ o ∈ operators, o.target = name → ∀ id a, v = .action id a → a.leads = true)
    (scope : ScopeId) : Spells operators { m with scopes := m.scopes.define scope name v } := by
  intro o ho s id a ha
  change ((m.scopes.define scope name v).bindings s).get? o.target = _ at ha
  by_cases hname : o.target = name
  · rcases Scopes.get?_define m.scopes scope s name o.target v with hsame | hnew
    · exact h o ho s id a (hsame.symm.trans ha)
    · exact hv o ho hname id a (Option.some.inj (hnew.symm.trans ha))
  · rw [Scopes.get?_define_of_ne (.inr hname)] at ha
    exact h o ho s id a ha

theorem likewise_constants :
    Likewise (Spells operators) (defineConstants scope) (defineConstants scope) := by
  have hconstant : ∀ name v, (∀ id a, v ≠ .action id a) →
      Likewise (Spells operators) (Eval.define scope name v) (Eval.define scope name v) :=
    fun name v hv => .refl fun m m' hm hrun => by
      cases hrun
      exact hm.define (fun _ _ _ id a ha => absurd ha (hv id a)) scope
  refine (hconstant _ _ (by simp)).bind ((hconstant _ _ (by simp)).bind
    ((hconstant _ _ (by simp)).bind ?_))
  exact .forM fun k _ => hconstant _ _ (by simp)

theorem likewise_native {n : Native} (hn : n.isInstallable operators = true) :
    Likewise (Spells operators) (n.defineIn scope) (n.bindIn scope) := by
  intro m hm
  obtain ⟨haction, hleads⟩ := n.described_of_installable hn m.nextIdentity
  constructor
  · simp only [Native.defineIn, Native.bindIn, Eval.run_bind, Eval.freshIdentity, Eval.run_command,
      Command.run, haction]
    rfl
  · intro m' hrun
    cases hrun
    have hcounted : Spells operators { m with nextIdentity := m.nextIdentity + 1 + 1 } := hm
    refine hcounted.define ?_ scope
    intro o ho htarget id a ha
    cases ha
    exact hleads o ho htarget

theorem likewise_operator {o : Operator} (ho : o ∈ operators) :
    Likewise (Spells operators) (defineOperator scope o) (o.bindIn scope) := by
  intro m hm
  unfold defineOperator Operator.bindIn
  rw [Eval.run_bind, Eval.run_bind]
  simp only [Eval.lookup, Eval.run_command, Command.run]
  have hfails : ∀ m', (Eval.failWith (.notAction o.target) : Eval Unit) m = (.done (), m') →
      Spells operators m' := by
    intro m' hrun
    cases hrun
  cases htarget : m.lookup scope o.target with
  | none => exact ⟨rfl, hfails⟩
  | some v =>
    cases v with
    | action id a =>
      have hleads := hm.lookup ho htarget
      have henfix : a.enfixWith .none = .ok { a with enfixed := true, deferral := .none } :=
        if_pos hleads
      simp only [henfix]
      refine ⟨rfl, fun m' hrun => ?_⟩
      cases hrun
      have hcounted : Spells operators { m with nextIdentity := m.nextIdentity + 1 } := hm
      refine hcounted.define ?_ scope
      intro _ _ _ _ _ hb
      cases hb
      exact hleads
    | _ => exact ⟨rfl, hfails⟩

end

variable {r : Registry} (h : r.natives.all (·.isInstallable r.operators) = true)

include h

theorem likewise_install (scope : ScopeId) :
    Likewise (Spells r.operators) (r.install scope) (r.bindIn scope) := by
  unfold install Registry.bindIn
  refine likewise_constants.bind ((Likewise.forM fun n hn => ?_).bind
    ((Likewise.forM fun o ho => likewise_operator ho).bind (.refl ?_)))
  · exact likewise_native (List.all_eq_true.1 h n hn)
  · intro m m' hm hrun
    cases hrun
    intro o ho s id a ha
    change ((m.note _).scopes.bindings s).get? o.target = _ at ha
    rw [Machine.note_scopes] at ha
    exact hm o ho s id a ha

theorem prepare_eq_unread {m : Machine} (hempty : m.scopes = {}) :
    Session.prepare r m = Session.prepareUnread r m := by
  have hspells : Spells r.operators { m with scopes := m.scopes.make none } := by
    intro o ho s id a ha
    have hunbound : (m.scopes.make none).bindings s = [] := by
      rw [Scopes.bindings, Scopes.scope_make, hempty]
      split <;> rfl
    change ((m.scopes.make none).bindings s).get? o.target = _ at ha
    rw [hunbound] at ha
    cases ha
  unfold Session.prepare Session.prepareUnread
  rw [Eval.run_bind, Eval.run_bind]
  simp only [Eval.newScope, Eval.run_command, Command.run]
  rw [Eval.run_bind, Eval.run_bind, (likewise_install h _ _ hspells).1]

/-- A session with a registry that can be installed starts without reading a spec. -/
theorem withRegistry_eq_unread (c : Config) (listening : Bool) :
    Session.withRegistry c r listening = Session.unread c r listening := by
  have hstart : Session.withRegistry c r listening =
      Session.ofPrepared c r (Session.prepare r { Machine.new c with listening }) := by
    unfold Session.withRegistry
    generalize Session.prepare r _ = x
    rcases x with ⟨⟨lib, user⟩ | _ | _ | _, m⟩ <;> rfl
  rw [hstart, prepare_eq_unread h rfl, Session.unread]

end Registry

end Homoicon
