import Homoicon.Proofs.Naming
import Mathlib.Data.Nat.Find

/-!
# Groups of parameters

A refinement owns the parameters that stand directly behind it, up to the next refinement or the
first variable of the body.  With names, owners and switches this is what fulfilment, the words of a
body and enfixing rely on in a parameter list.
-/

namespace Homoicon

variable {params : List Param} {p : Param} {k n : Nat}

/-- The parameter at `j` is an argument of the refinement at `k`. -/
def IsOwnedBy (params : List Param) (k j : Nat) : Prop := ∃ p, params[j]? = some p ∧ p.owner = some k

/-- Everything behind `k` and before `n` is owned by `k`. -/
def OwnsUpTo (params : List Param) (k n : Nat) : Prop :=
  ∀ j q, k < j → j < n → params[j]? = some q → q.owner = some k

theorem OwnsUpTo.append (h : OwnsUpTo params k n) (hn : n ≤ params.length) (more : List Param) :
    OwnsUpTo (params ++ more) k n := by
  intro j q hkj hjn hq
  rw [List.getElem?_append_left (Nat.lt_of_lt_of_le hjn hn)] at hq
  exact h j q hkj hjn hq

theorem OwnsUpTo.of_append {more : List Param} (h : OwnsUpTo (params ++ more) k n)
    (hn : n ≤ params.length) : OwnsUpTo params k n := by
  intro j q hkj hjn hq
  refine h j q hkj hjn ?_
  rw [List.getElem?_append_left (Nat.lt_of_lt_of_le hjn hn), hq]

theorem OwnsUpTo.concat (h : OwnsUpTo params k params.length) (hp : p.owner = some k) :
    OwnsUpTo (params ++ [p]) k (params ++ [p]).length := by
  intro j q hkj _ hq
  rcases getElem?_concat_cases hq with hq | ⟨-, rfl⟩
  · exact h j q hkj (List.getElem?_eq_some_iff.1 hq).1 hq
  · exact hp

/-- Between an argument and its refinement stand only arguments of that refinement. -/
def Contiguous (params : List Param) : Prop :=
  ∀ i p k, params[i]? = some p → p.owner = some k → OwnsUpTo params k i

namespace Contiguous

theorem concat (h : Contiguous params)
    (hp : ∀ k, p.owner = some k → OwnsUpTo params k params.length) : Contiguous (params ++ [p]) := by
  intro i q k hq hk
  rcases getElem?_concat_cases hq with hq | ⟨rfl, rfl⟩
  · exact (h i q k hq hk).append (Nat.le_of_lt (List.getElem?_eq_some_iff.1 hq).1) _
  · exact (hp k hk).append (Nat.le_refl _) _

theorem init (h : Contiguous (params ++ [p])) : Contiguous params := by
  intro i q k hq hk
  have hi := (List.getElem?_eq_some_iff.1 hq).1
  exact (h i q k (by rw [List.getElem?_append_left hi, hq]) hk).of_append (Nat.le_of_lt hi)

/-- The arguments of each refinement are one run of parameters directly behind it. -/
theorem run (h : Contiguous params) (hw : WellOwned params) (k : Nat) :
    ∃ n, ∀ j, IsOwnedBy params k j ↔ k < j ∧ j ≤ k + n := by
  classical
  have hstop : ∃ n, ¬IsOwnedBy params k (k + n + 1) := by
    refine ⟨params.length, ?_⟩
    rintro ⟨p, hp, -⟩
    have hlt := (List.getElem?_eq_some_iff.1 hp).1
    omega
  refine ⟨Nat.find hstop, fun j => ⟨?_, ?_⟩⟩
  · rintro ⟨p, hp, hk⟩
    have hkj := (hw.owner_before j p k hp hk).1
    refine ⟨hkj, Nat.not_lt.1 fun hlt => Nat.find_spec hstop ?_⟩
    -- the parameter at which the run stops would be an argument or stand before one
    have hj := (List.getElem?_eq_some_iff.1 hp).1
    obtain heq | hbetween := Nat.eq_or_lt_of_le (Nat.succ_le_of_lt hlt)
    · rw [← Nat.succ_eq_add_one, heq]
      exact ⟨p, hp, hk⟩
    · have hq := List.getElem?_eq_getElem (Nat.lt_trans hbetween hj)
      exact ⟨_, hq, h j p k hp hk _ _ (by omega) hbetween hq⟩
  · rintro ⟨hkj, hj⟩
    have howned := Nat.find_min hstop (m := j - k - 1) (by omega)
    have heq : k + (j - k - 1) + 1 = j := by omega
    rwa [heq, not_not] at howned

end Contiguous

/-- A variable of the body has neither an owner nor types, and no definitional return is declared. -/
def Param.Plain (p : Param) : Prop :=
  p.role ≠ .returns ∧ (p.role = .localWord → p.owner = none ∧ p.types = TypeSet.empty)

/-! ### Reading a spec -/

namespace Spec

namespace Reading

variable {r r' : Reading}

theorem plain_change (h : ∀ p ∈ r.spec.params, p.Plain) (hc : Change r r') :
    ∀ p ∈ r'.spec.params, p.Plain := by
  cases hc with
  | kept params | localWords params => exact params ▸ h
  | declared p new sort params =>
    rw [params, List.forall_mem_append]
    refine ⟨h, List.forall_mem_singleton.2 ?_⟩
    obtain ⟨-, hrole, htypes, hfree⟩ | ⟨htakes, -⟩ := sort
    · exact ⟨by simp [hrole], fun _ => ⟨hfree, htypes⟩⟩
    · refine ⟨fun hrole => ?_, fun hrole => ?_⟩ <;> rw [hrole] at htakes <;> cases htakes
  | refinement p role free new params =>
    rw [params, List.forall_mem_append]
    exact ⟨h, List.forall_mem_singleton.2 ⟨by simp [role], by simp [role]⟩⟩
  | typed before p q items typed params params' =>
    obtain ⟨-, hlocal, -, -, hrole⟩ := typedParam_eq_ok typed
    rw [params, List.forall_mem_append, List.forall_mem_singleton] at h
    rw [params', List.forall_mem_append, List.forall_mem_singleton]
    refine ⟨h.1, ?_⟩
    obtain hrole | ⟨pull, hrole⟩ := hrole
    · exact ⟨hrole ▸ h.2.1, fun hq => absurd (hrole.symm.trans hq) hlocal⟩
    · exact ⟨by simp [hrole], by simp [hrole]⟩

/-- The current owner owns all that stands behind it, and where variables of the body are declared,
there is none. -/
structure Grouped (r : Reading) : Prop where
  contiguous : Contiguous r.spec.params
  owner : ∀ k, r.owner = some k → OwnsUpTo r.spec.params k r.spec.params.length
  locals : r.locals = true → r.owner = none

theorem Grouped.change (h : r.Grouped) (hc : Change r r') : r'.Grouped := by
  cases hc with
  | kept params owner locals =>
    refine ⟨params ▸ h.contiguous, ?_, ?_⟩
    · rw [params, owner]
      exact h.owner
    · rw [owner, locals]
      exact h.locals
  | localWords params owner => exact ⟨params ▸ h.contiguous, by simp [owner], fun _ => owner⟩
  | declared p new sort params owner locals =>
    have howner : p.owner = r.owner := by
      obtain ⟨hlocals, -, -, hfree⟩ | ⟨-, howner⟩ := sort
      · rw [hfree, h.locals hlocals]
      · exact howner
    have howns : ∀ k, p.owner = some k → OwnsUpTo r.spec.params k r.spec.params.length :=
      fun k hk => h.owner k (howner ▸ hk)
    refine ⟨params ▸ h.contiguous.concat howns, ?_, ?_⟩
    · rw [params, owner, ← howner]
      exact fun k hk => (howns k hk).concat hk
    · rw [owner, locals]
      exact h.locals
  | refinement p role free new params owner locals =>
    refine ⟨params ▸ h.contiguous.concat (by simp [free]), ?_, by simp [locals]⟩
    -- nothing stands behind the new owner yet
    rw [params, owner]
    rintro _ ⟨⟩ j q hj hlength
    rw [List.length_append, List.length_singleton] at hlength
    omega
  | typed before p q items typed params params' owner locals =>
    obtain ⟨-, -, -, hown, -⟩ := typedParam_eq_ok typed
    have hcontiguous : Contiguous (before ++ [p]) := params ▸ h.contiguous
    have howner : ∀ k, r.owner = some k → OwnsUpTo (before ++ [p]) k (before ++ [p]).length :=
      params ▸ h.owner
    refine ⟨params' ▸ hcontiguous.init.concat fun k hk => ?_, ?_, ?_⟩
    · exact (hcontiguous before.length p k List.getElem?_concat_length (hown ▸ hk)).of_append
        (Nat.le_refl _)
    · rw [params', owner]
      intro k hk j p' hkj hj hp'
      rw [List.length_append, List.length_singleton] at hj
      rcases getElem?_concat_cases hp' with hp' | ⟨rfl, rfl⟩
      · have hlt := (List.getElem?_eq_some_iff.1 hp').1
        exact howner k hk j p' hkj (by simp; omega) (by rw [List.getElem?_append_left hlt, hp'])
      · rw [hown]
        exact howner k hk _ p hkj (by simp) List.getElem?_concat_length
    · rw [owner, locals]
      exact h.locals

end Reading

/-- What every parameter list that was read satisfies. -/
structure WellFormed (params : List Param) : Prop where
  named : Named params
  owned : WellOwned params
  /-- What a refinement owns is one run of parameters directly behind it. -/
  run : ∀ k, ∃ n, ∀ j, IsOwnedBy params k j ↔ k < j ∧ j ≤ k + n
  switched : ∀ (i : Nat) (p : Param), params[i]? = some p → p.role = .modal →
    ∃ s, params[i + 1]? = some s ∧ s.role = .refinement ∧ ∀ q ∈ params, q.owner ≠ some (i + 1)
  localWord : ∀ p ∈ params, p.role = .localWord → p.owner = none ∧ p.types = TypeSet.empty
  no_returns : ∀ p ∈ params, p.role ≠ .returns
  /-- Behind variables of the body only, a parameter is a refinement or has no owner. -/
  first : ∀ (i : Nat) (p : Param), params[i]? = some p → p.role ≠ .localWord →
    (∀ (j : Nat) (q : Param), j < i → params[j]? = some q → q.role = .localWord) →
    p.role = .refinement ∨ p.owner = none

theorem read_wellFormed {items : List Value} {spec : Spec} (h : read items = .ok spec) :
    WellFormed spec.params := by
  have howned := read_wellOwned h
  obtain ⟨r, rfl, hgrouped⟩ :=
    Reading.induct (P := Reading.Grouped) ⟨nofun, nofun, fun _ => rfl⟩ Reading.Grouped.change h
  obtain ⟨r', heq, hplain⟩ := Reading.induct (P := fun r => ∀ p ∈ r.spec.params, p.Plain) nofun
    Reading.plain_change h
  rw [heq] at hplain
  refine ⟨read_named h, howned, hgrouped.contiguous.run howned,
    fun i p hp hrole => hasSwitchAfter_iff.1 (read_switched h i p hp hrole),
    fun p hp => (hplain p hp).2, fun p hp => (hplain p hp).1, fun i p hp _ hbefore => ?_⟩
  cases howner : p.owner with
  | none => exact .inr rfl
  | some k =>
    -- the owner stands before it and is no variable of the body
    obtain ⟨hki, q, hq, hrole⟩ := howned.owner_before i p k hp howner
    have hlocal := hbefore k q hki hq
    rw [hrole] at hlocal
    cases hlocal

theorem read_wellFormed_refined :
    WellFormed [{ name := "x", role := .modal }, { name := "x", role := .refinement },
      { name := "only", role := .refinement }, { name := "a", role := .hardQuote, owner := some 2 },
      { name := "b", role := .softQuote, owner := some 2 },
      { name := "n", role := .localWord, types := TypeSet.empty },
      { name := "c", role := .hardQuote }] := by
  have hread : read [.sym (.word "x"), .refinement "x", .refinement "only", .quoted (.word "a"),
      .getWord "b", .tag "local", .word "n", .quoted (.word "c")] = .ok
        { params := [{ name := "x", role := .modal }, { name := "x", role := .refinement },
            { name := "only", role := .refinement },
            { name := "a", role := .hardQuote, owner := some 2 },
            { name := "b", role := .softQuote, owner := some 2 },
            { name := "n", role := .localWord, types := TypeSet.empty },
            { name := "c", role := .hardQuote }] } := rfl
  exact read_wellFormed hread

end Spec

end Homoicon
