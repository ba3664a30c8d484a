import Homoicon.Evaluate.Operation.Generator
import Homoicon.Proofs.Results

/-!
# Parameter lists

What every parameter list that was read from a spec satisfies: the refinement that owns a parameter
stands before it, and refinements are not owned themselves.  `Action.Made` says how actions come to
their parameters and presets.
-/

namespace Homoicon

def IsRefinementAt (params : List Param) (r : Nat) : Prop :=
  ∃ q, params[r]? = some q ∧ q.role = .refinement

/-- Owners are refinements that stand before what they own, and are not owned themselves. -/
structure WellOwned (params : List Param) : Prop where
  owner_before : ∀ (i : Nat) (p : Param) (r : Nat), params[i]? = some p →
    p.owner = some r → r < i ∧ IsRefinementAt params r
  refinement_free : ∀ (i : Nat) (p : Param), params[i]? = some p → p.role = .refinement → p.owner = none

theorem IsRefinementAt.lt {params : List Param} {r : Nat} (h : IsRefinementAt params r) :
    r < params.length := by
  obtain ⟨q, hq, -⟩ := h
  exact (List.getElem?_eq_some_iff.1 hq).1

theorem IsRefinementAt.append {params : List Param} {r : Nat} (h : IsRefinementAt params r)
    (more : List Param) : IsRefinementAt (params ++ more) r := by
  have hr := h.lt
  obtain ⟨q, hq, hrole⟩ := h
  exact ⟨q, by rw [List.getElem?_append_left hr, hq], hrole⟩

theorem IsRefinementAt.of_append {params more : List Param} {r : Nat}
    (h : IsRefinementAt (params ++ more) r) (hr : r < params.length) : IsRefinementAt params r := by
  obtain ⟨q, hq, hrole⟩ := h
  rw [List.getElem?_append_left hr] at hq
  exact ⟨q, hq, hrole⟩

theorem getElem?_concat_cases {params : List Param} {p q : Param} {i : Nat}
    (h : (params ++ [p])[i]? = some q) :
    params[i]? = some q ∨ i = params.length ∧ q = p := by
  rcases Nat.lt_or_ge i params.length with hi | hi
  · left
    rwa [List.getElem?_append_left hi] at h
  · right
    have hlt := (List.getElem?_eq_some_iff.1 h).1
    rw [List.length_append, List.length_singleton] at hlt
    obtain rfl : i = params.length := by omega
    rw [List.getElem?_concat_length] at h
    exact ⟨rfl, (Option.some.inj h).symm⟩

namespace WellOwned

variable {params : List Param} {p : Param}

theorem nil : WellOwned [] := ⟨by simp, by simp⟩

theorem concat (h : WellOwned params) (howner : ∀ r, p.owner = some r → IsRefinementAt params r)
    (hfree : p.role = .refinement → p.owner = none) : WellOwned (params ++ [p]) := by
  constructor
  · intro i q r hq hr
    rcases getElem?_concat_cases hq with hq | ⟨rfl, rfl⟩
    · obtain ⟨hlt, href⟩ := h.owner_before i q r hq hr
      exact ⟨hlt, href.append _⟩
    · exact ⟨(howner r hr).lt, (howner r hr).append _⟩
  · intro i q hq hrole
    rcases getElem?_concat_cases hq with hq | ⟨-, rfl⟩
    · exact h.refinement_free i q hq hrole
    · exact hfree hrole

theorem init (h : WellOwned (params ++ [p])) : WellOwned params := by
  have hin : ∀ {i : Nat} {q : Param}, params[i]? = some q → (params ++ [p])[i]? = some q := by
    intro i q hq
    rw [List.getElem?_append_left (List.getElem?_eq_some_iff.1 hq).1, hq]
  constructor
  · intro i q r hq hr
    obtain ⟨hlt, href⟩ := h.owner_before i q r (hin hq) hr
    have hi := (List.getElem?_eq_some_iff.1 hq).1
    exact ⟨hlt, href.of_append (by omega)⟩
  · exact fun i q hq hrole => h.refinement_free i q (hin hq) hrole

theorem last_owner (h : WellOwned (params ++ [p])) {r : Nat} (hr : p.owner = some r) :
    IsRefinementAt params r := by
  obtain ⟨hlt, href⟩ := h.owner_before params.length p r (by simp) hr
  exact href.of_append hlt

end WellOwned

/-! ### Reading a spec -/

namespace Spec

theorem typedParam_eq_ok {p q : Param} {items : List Value} (h : typedParam p items = .ok q) :
    p.role ≠ .refinement ∧ p.role ≠ .localWord ∧ q.name = p.name ∧ q.owner = p.owner ∧
      (q.role = p.role ∨ ∃ pull, q.role = .variadic pull) := by
  unfold typedParam at h
  split at h
  · cases h
  · rename_i hrole
    obtain ⟨href, hlocal⟩ := not_or.1 hrole
    obtain ⟨⟨types, variadic⟩, -, h⟩ := except_bind_eq_ok.1 h
    cases variadic with
    | false =>
      cases h
      exact ⟨href, hlocal, rfl, rfl, .inl rfl⟩
    | true =>
      cases hv : variadicRole? p.role with
      | none => simp [hv, fault] at h
      | some role =>
        simp only [hv, if_true] at h
        cases h
        refine ⟨href, hlocal, rfl, rfl, .inr ?_⟩
        revert hv
        cases p.role <;> simp [variadicRole?]
        all_goals rintro rfl; simp

namespace Reading

variable {r r' : Reading}

/-- What one item does to the parameters of a reading, to their owner and to the mode. -/
inductive Change (r r' : Reading) : Prop
  | kept (params : r'.spec.params = r.spec.params) (owner : r'.owner = r.owner)
    (locals : r'.locals = r.locals)
  /-- From `<local>` on, nothing has an owner. -/
  | localWords (params : r'.spec.params = r.spec.params) (owner : r'.owner = none)
  | declared (p : Param) (new : ∀ q ∈ r.spec.params, q.name ≠ p.name)
    (sort : r.locals = true ∧ p.role = .localWord ∧ p.types = TypeSet.empty ∧ p.owner = none ∨
      p.role.takesArgument = true ∧ p.owner = r.owner)
    (params : r'.spec.params = r.spec.params ++ [p]) (owner : r'.owner = r.owner)
    (locals : r'.locals = r.locals)
  | refinement (p : Param) (role : p.role = .refinement) (free : p.owner = none)
    (new : (∃ q, r.spec.params.getLast? = some q ∧ q.role = .modal ∧ q.name = p.name) ∨
      ∀ q ∈ r.spec.params, q.name ≠ p.name)
    (params : r'.spec.params = r.spec.params ++ [p]) (owner : r'.owner = some r.spec.params.length)
    (locals : r'.locals = false)
  | typed (before : List Param) (p q : Param) (items : List Value)
    (typed : typedParam p items = .ok q) (params : r.spec.params = before ++ [p])
    (params' : r'.spec.params = before ++ [q]) (owner : r'.owner = r.owner)
    (locals : r'.locals = r.locals)

theorem declare_change {name : String} {role : Role} (he : r.declare name role = .ok r')
    (hrole : r.locals = true ∧ role = .localWord ∨ role.takesArgument = true) : Change r r' := by
  unfold Reading.declare at he
  split at he
  · cases he
  · rename_i hany
    cases he
    have hnew : ∀ q ∈ r.spec.params, q.name ≠ name := by simpa using hany
    obtain ⟨hlocals, rfl⟩ | htakes := hrole
    · exact .declared { name, role := .localWord, types := TypeSet.empty } hnew
        (.inl ⟨hlocals, rfl, rfl, rfl⟩) rfl rfl rfl
    · have hlocal : role ≠ .localWord := by
        rintro rfl
        cases htakes
      refine .declared { name, role, owner := r.owner } hnew (.inr ⟨htakes, rfl⟩) ?_ rfl rfl
      rw [if_neg hlocal]

theorem declareRefinement_change {name : String} (he : r.declareRefinement name = .ok r') :
    Change r r' := by
  unfold Reading.declareRefinement at he
  simp only at he
  split at he
  · cases he
  · rename_i htaken
    cases he
    refine .refinement { name, role := .refinement } rfl rfl ?_ rfl rfl rfl
    by_cases hnew : ∀ q ∈ r.spec.params, q.name ≠ name
    · exact .inr hnew
    · left
      have hany : (r.spec.params.any fun p => p.name == name) = true := by simpa using hnew
      -- the name is taken, so it is that of the silenced argument before
      rw [hany, Bool.and_true, Bool.not_eq_true', Bool.not_eq_false] at htaken
      simpa [Option.any_eq_true] using htaken

theorem declareTypes_change {items : List Value} (he : r.declareTypes items = .ok r') :
    Change r r' := by
  unfold Reading.declareTypes at he
  split at he
  · cases he
  · rename_i p hp
    obtain ⟨q, hq, he⟩ := except_bind_eq_ok.1 he
    cases he
    obtain ⟨before, hparams⟩ := List.getLast?_eq_some_iff.1 hp
    refine .typed before p q items hq hparams ?_ rfl rfl
    rw [hparams, List.dropLast_concat]

theorem readItem_change {first : Bool} {item : Value} (he : r.readItem first item = .ok r') :
    Change r r' := by
  unfold Reading.readItem at he
  split at he
  · split at he <;> cases he <;> exact .kept rfl rfl rfl
  · cases he
    exact .localWords rfl rfl
  · cases he
    exact .kept rfl rfl rfl
  · exact declareTypes_change he
  · refine declare_change he ?_
    split
    · rename_i hlocals
      exact .inl ⟨hlocals, rfl⟩
    · exact .inr rfl
  · exact declare_change he (.inr rfl)
  · cases he
  · exact declare_change he (.inr rfl)
  · exact declare_change he (.inr rfl)
  · cases he
  · exact declareRefinement_change he
  · cases he

theorem next_change {item : Value} (he : r.next item = .ok r') : Change r r' := by
  unfold Reading.next at he
  simp only at he
  split at he
  · obtain ⟨_, -, he⟩ := except_bind_eq_ok.1 he
    cases he
    exact .kept rfl rfl rfl
  · have hchange := readItem_change he
    cases hchange with
    | kept params owner locals => exact .kept params owner locals
    | localWords params owner => exact .localWords params owner
    | declared p new sort params owner locals => exact .declared p new sort params owner locals
    | refinement p role free new params owner locals =>
      exact .refinement p role free new params owner locals
    | typed before p q items typed params params' owner locals =>
      exact .typed before p q items typed params params' owner locals

/-- What holds of an empty reading and is kept by each item holds of everything that is read. -/
theorem induct {P : Reading → Prop} (init : P {})
    (change : ∀ {r r' : Reading}, P r → Change r r' → P r') {items : List Value} {spec : Spec}
    (h : read items = .ok spec) : ∃ r, r.spec = spec ∧ P r := by
  have hrun : ∀ (items : List Value) (r r' : Reading), P r → items.foldlM Reading.next r = .ok r' →
      P r' := by
    intro items
    induction items with
    | nil =>
      rintro r _ hr ⟨⟩
      exact hr
    | cons item items ih =>
      intro r r' hr he
      rw [List.foldlM_cons] at he
      obtain ⟨r₁, h₁, he⟩ := except_bind_eq_ok.1 he
      exact ih r₁ r' (change hr (next_change h₁)) he
  unfold read at h
  obtain ⟨r, hr, h⟩ := except_bind_eq_ok.1 h
  split at h
  · cases h
  · cases h
    exact ⟨r, rfl, hrun items {} r init hr⟩

/-- What holds of a spec at every point of its reading. -/
structure Sound (r : Reading) : Prop where
  params : WellOwned r.spec.params
  owner : ∀ k, r.owner = some k → IsRefinementAt r.spec.params k

theorem Sound.change (h : r.Sound) (hc : Change r r') : r'.Sound := by
  cases hc with
  | kept params owner locals => exact ⟨params ▸ h.params, by rw [params, owner]; exact h.owner⟩
  | localWords params owner => exact ⟨params ▸ h.params, by simp [owner]⟩
  | declared p new sort params owner locals =>
    refine ⟨params ▸ h.params.concat (fun k hk => ?_) fun hr => ?_, fun k hk => ?_⟩
    · obtain ⟨-, -, -, hfree⟩ | ⟨-, howner⟩ := sort
      · rw [hfree] at hk
        cases hk
      · exact h.owner k (howner ▸ hk)
    · obtain ⟨-, -, -, hfree⟩ | ⟨htakes, -⟩ := sort
      · exact hfree
      · rw [hr] at htakes
        cases htakes
    · rw [params]
      exact (h.owner k (owner ▸ hk)).append _
  | refinement p role free new params owner locals =>
    refine ⟨params ▸ h.params.concat (by simp [free]) fun _ => free, fun k hk => ?_⟩
    obtain rfl := Option.some.inj (owner.symm.trans hk)
    exact ⟨p, by rw [params, List.getElem?_concat_length], role⟩
  | typed before p q items typed params params' owner locals =>
    obtain ⟨hprole, -, -, hown, hrole⟩ := typedParam_eq_ok typed
    have hqrole : q.role ≠ .refinement := by
      obtain hrole | ⟨pull, hrole⟩ := hrole
      · exact hrole ▸ hprole
      · simp [hrole]
    have hwell : WellOwned (before ++ [p]) := params ▸ h.params
    refine ⟨params' ▸ hwell.init.concat (fun k hk => hwell.last_owner (hown ▸ hk))
      fun e => absurd e hqrole, fun k hk => ?_⟩
    have hk : IsRefinementAt (before ++ [p]) k := params ▸ h.owner k (owner ▸ hk)
    -- the owner is not the parameter that gets its types: that one is no refinement
    have hne : k ≠ before.length := by
      rintro rfl
      obtain ⟨q, hq, hrole⟩ := hk
      simp only [List.getElem?_concat_length, Option.some.injEq] at hq
      exact hprole (hq ▸ hrole)
    have hlt := hk.lt
    simp only [List.length_append, List.length_singleton] at hlt
    rw [params']
    exact (hk.of_append (by omega)).append _

end Reading

theorem read_wellOwned {items : List Value} {spec : Spec} (h : read items = .ok spec) :
    WellOwned spec.params := by
  obtain ⟨r, rfl, hr⟩ := Reading.induct (P := Reading.Sound) ⟨.nil, nofun⟩ Reading.Sound.change h
  exact hr.params

end Spec

theorem functionParams_wellOwned {spec : Spec} {params : List Param}
    (hs : WellOwned spec.params) (h : functionParams spec = .ok params) : WellOwned params := by
  unfold functionParams at h
  split at h
  · cases h
  · cases h
    exact hs.concat (by simp) (by simp)

/-- An action whose parameters were read from a spec, with the definitional return or without, and
which may have been specialized, adapted, enfixed and relabelled since. -/
inductive Action.Made : Action → Prop where
  | read {items : List Value} {spec : Spec} {a : Action} (read : Spec.read items = .ok spec)
    (params : a.params = spec.params ∨ functionParams spec = .ok a.params)
    (exemplar : a.exemplar = none) (prefixed : a.enfixed = false) : Made a
  | specialized {a : Action} {scope : ScopeId} {slots : List (Option Value)} {m m' : Machine}
    (made : Made a) (presets : presetSlots a scope a.params.zipIdx m = (.done slots, m')) :
    Made (a.specialized slots)
  | adapted {a : Action} (made : Made a) (prelude : List Value) (scope : ScopeId) :
    Made { a with
      label := none, enfixed := false, deferral := .none
      dispatcher := .adapted prelude scope a }
  | enfixed {a b : Action} {deferral : Deferral} (made : Made a)
    (enfix : a.enfixWith deferral = .ok b) : Made b
  | relabelled {a : Action} (made : Made a) (label : Option String) : Made { a with label }

namespace Action

theorem enfixWith_eq_ok {a b : Action} {deferral : Deferral} (h : a.enfixWith deferral = .ok b) :
    b = { a with enfixed := true, deferral } ∧ a.firstParam?.any (fun p => p.role != .refinement) := by
  unfold enfixWith at h
  split at h
  · rename_i hfirst
    cases h
    exact ⟨rfl, hfirst⟩
  · cases h

theorem Made.wellOwned {a : Action} (h : a.Made) : WellOwned a.params := by
  induction h with
  | read read params =>
    have hs := Spec.read_wellOwned read
    rcases params with hp | hp
    · exact hp ▸ hs
    · exact functionParams_wellOwned hs hp
  | specialized _ _ ih => exact ih
  | adapted _ _ _ ih => exact ih
  | enfixed _ enfix ih =>
    obtain ⟨rfl, -⟩ := enfixWith_eq_ok enfix
    exact ih
  | relabelled _ _ ih => exact ih

theorem Made.firstArgument {a : Action} (h : a.Made) (he : a.enfixed = true) :
    ∃ i p, a.firstArgument? = some i ∧ a.params[i]? = some p ∧ p.role ≠ .refinement := by
  induction h with
  | read _ _ _ hf => exact absurd he (by simp [hf])
  | specialized _ _ ih => exact ih he
  | adapted => cases he
  | enfixed _ enfix =>
    obtain ⟨rfl, hfirst⟩ := enfixWith_eq_ok enfix
    obtain ⟨p, hp, hrole⟩ := (Option.any_eq_true _ _).1 hfirst
    obtain ⟨i, hi, hp⟩ := Option.bind_eq_some_iff.1 hp
    exact ⟨i, p, hi, hp, by simpa using hrole⟩
  | relabelled _ _ ih => exact ih he

/-- The first argument belongs to no refinement, because that refinement would come first. -/
theorem firstArgument?_free {a : Action} (h : WellOwned a.params) {i : Nat} {p : Param}
    (hi : a.firstArgument? = some i) (hp : a.params[i]? = some p) : p.owner = none := by
  cases howner : p.owner with
  | none => rfl
  | some r =>
    obtain ⟨hlt, q, hq, hrole⟩ := h.owner_before i p r hp howner
    obtain ⟨_, -, hfirst⟩ := List.findIdx?_eq_some_iff_getElem.1 hi
    obtain ⟨hr, rfl⟩ := List.getElem?_eq_some_iff.1 hq
    have := hfirst r hlt
    simp [hrole] at this

end Action

end Homoicon
