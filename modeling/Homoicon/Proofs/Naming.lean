import Homoicon.Proofs.Filling

/-!
# Names of parameters

No two parameters that were read from a spec have the same name, except that a refinement may be
called like the silenced argument directly before it.  A silenced argument always has a refinement
without arguments behind it.
-/

namespace Homoicon

/-- Two parameters of one name are a silenced argument and the refinement directly after it. -/
def Named (params : List Param) : Prop :=
  ∀ i j p q, params[i]? = some p → params[j]? = some q → i < j → p.name = q.name →
    j = i + 1 ∧ p.role = .modal ∧ q.role = .refinement

namespace Named

variable {params : List Param} {p : Param}

theorem nil : Named [] := by
  intro i j p q h
  cases h

theorem concat (h : Named params)
    (hp : ∀ i q, params[i]? = some q → q.name = p.name →
      i + 1 = params.length ∧ q.role = .modal ∧ p.role = .refinement) : Named (params ++ [p]) := by
  intro i j q r hq hr hij hname
  have hj := (List.getElem?_eq_some_iff.1 hr).1
  rw [List.length_append, List.length_singleton] at hj
  have hq' : params[i]? = some q := by
    rw [List.getElem?_append_left (by omega)] at hq
    exact hq
  rcases getElem?_concat_cases hr with hr | ⟨rfl, rfl⟩
  · exact h i j q r hq' hr hij hname
  · obtain ⟨hlast, hroles⟩ := hp i q hq' hname
    exact ⟨hlast.symm, hroles⟩

theorem init (h : Named (params ++ [p])) : Named params := by
  intro i j q r hq hr
  have hi := (List.getElem?_eq_some_iff.1 hq).1
  have hj := (List.getElem?_eq_some_iff.1 hr).1
  apply h i j q r
  · rw [List.getElem?_append_left hi, hq]
  · rw [List.getElem?_append_left hj, hr]

/-- A parameter that is no refinement has a name of its own, as far as those before it go. -/
theorem last_new (h : Named (params ++ [p])) (hr : p.role ≠ .refinement) {i : Nat} {q : Param}
    (hq : params[i]? = some q) : q.name ≠ p.name := by
  intro hname
  have hi := (List.getElem?_eq_some_iff.1 hq).1
  have hq' : (params ++ [p])[i]? = some q := by rw [List.getElem?_append_left hi, hq]
  exact hr (h i params.length q p hq' List.getElem?_concat_length hi hname).2.2

end Named

/-! ### Reading a spec -/

namespace Spec

theorem Reading.named_change {r r' : Reading} (h : Named r.spec.params) (hc : Change r r') :
    Named r'.spec.params := by
  cases hc with
  | kept params | localWords params => exact params ▸ h
  | declared p new sort params =>
    rw [params]
    exact h.concat fun i q hq hname => absurd hname (new q (List.mem_of_getElem? hq))
  | refinement p role free new params =>
    rw [params]
    refine h.concat fun i q hq hname => ?_
    obtain ⟨last, hlast, hmodal, hlastName⟩ | hnew := new
    · -- the name is that of the silenced argument before, and of no other parameter
      obtain ⟨before, hparams⟩ := List.getLast?_eq_some_iff.1 hlast
      rw [hparams] at h hq
      have hlastRole : last.role ≠ .refinement := by
        rw [hmodal]
        decide
      rw [hparams, List.length_append, List.length_singleton]
      rcases getElem?_concat_cases hq with hq | ⟨rfl, rfl⟩
      · exact absurd (hname.trans hlastName.symm) (h.last_new hlastRole hq)
      · exact ⟨rfl, hmodal, role⟩
    · exact absurd hname (hnew q (List.mem_of_getElem? hq))
  | typed before p q items typed params params' =>
    obtain ⟨hrole, -, hqname, -, -⟩ := typedParam_eq_ok typed
    rw [params] at h
    rw [params']
    exact h.init.concat fun i q' hq' hname =>
      absurd (hname.trans hqname) (h.last_new hrole hq')

theorem read_named {items : List Value} {spec : Spec} (h : read items = .ok spec) :
    Named spec.params := by
  obtain ⟨r, rfl, hr⟩ :=
    Reading.induct (P := fun r => Named r.spec.params) .nil Reading.named_change h
  exact hr

/-- Every silenced argument has a refinement without arguments behind it. -/
def Switched (params : List Param) : Prop :=
  ∀ i q, params[i]? = some q → q.role = .modal → hasSwitchAfter params i = true

theorem read_switched {items : List Value} {spec : Spec} (h : read items = .ok spec) :
    Switched spec.params := by
  unfold read at h
  obtain ⟨r, -, h⟩ := except_bind_eq_ok.1 h
  split at h
  · cases h
  · rename_i hnone
    cases h
    intro i q hq hrole
    by_cases hswitch : hasSwitchAfter r.spec.params i = true
    · exact hswitch
    · rw [unswitchedModal?, Option.map_eq_none_iff, List.find?_eq_none] at hnone
      have hfound := hnone (q, i) (List.mem_zipIdx_iff_getElem?.2 hq)
      simp [hrole, hswitch] at hfound

theorem hasSwitchAfter_iff {params : List Param} {i : Nat} : hasSwitchAfter params i = true ↔
    ∃ s, params[i + 1]? = some s ∧ s.role = .refinement ∧ ∀ q ∈ params, q.owner ≠ some (i + 1) := by
  unfold hasSwitchAfter
  rw [Option.any_eq_true]
  simp only [Bool.and_eq_true, beq_iff_eq, Bool.not_eq_true', List.any_eq_false]

theorem Switched.concat {params : List Param} (h : Switched params) {p : Param}
    (hrole : p.role ≠ .modal) (howner : p.owner = none) : Switched (params ++ [p]) := by
  intro i q hq hmodal
  rcases getElem?_concat_cases hq with hq | ⟨rfl, rfl⟩
  · obtain ⟨s, hs, hrefinement, hargless⟩ := hasSwitchAfter_iff.1 (h i q hq hmodal)
    refine hasSwitchAfter_iff.2 ⟨s, ?_, hrefinement, ?_⟩
    · rw [List.getElem?_append_left (List.getElem?_eq_some_iff.1 hs).1, hs]
    · intro q' hq'
      rcases List.mem_append.1 hq' with hq' | hq'
      · exact hargless q' hq'
      · rw [List.mem_singleton.1 hq', howner]
        simp
  · exact absurd hmodal hrole

end Spec

theorem functionParams_named {spec : Spec} {params : List Param} (hs : Named spec.params)
    (h : functionParams spec = .ok params) : Named params := by
  unfold functionParams at h
  split at h
  · cases h
  · rename_i hfree
    cases h
    apply hs.concat
    intro i q hq hname
    exfalso
    apply hfree
    rw [List.any_eq_true]
    exact ⟨q, List.mem_of_getElem? hq, by simpa using hname⟩

theorem functionParams_switched {spec : Spec} {params : List Param}
    (hs : Spec.Switched spec.params) (h : functionParams spec = .ok params) :
    Spec.Switched params := by
  unfold functionParams at h
  split at h
  · cases h
  · cases h
    exact hs.concat (fun hmodal => by cases hmodal) rfl

namespace Action

variable {a : Action}

/-- What holds of every parameter list that was read holds of the parameters of every action. -/
theorem Made.params_of (h : a.Made) {P : List Param → Prop}
    (hread : ∀ items spec, Spec.read items = .ok spec → P spec.params)
    (hfunction : ∀ spec params, P spec.params → functionParams spec = .ok params → P params) :
    P a.params := by
  induction h with
  | read read params =>
    have hs := hread _ _ read
    rcases params with hp | hp
    · exact hp ▸ hs
    · exact hfunction _ _ hs hp
  | specialized _ _ ih => exact ih
  | adapted _ _ _ ih => exact ih
  | enfixed _ enfix ih =>
    obtain ⟨rfl, -⟩ := enfixWith_eq_ok enfix
    exact ih
  | relabelled _ _ ih => exact ih

theorem Made.named (h : a.Made) : Named a.params :=
  h.params_of (fun _ _ => Spec.read_named) fun _ _ => functionParams_named

theorem Made.switch (h : a.Made) {i : Nat} {q : Param} (hq : a.params[i]? = some q)
    (hrole : q.role = .modal) : ∃ s, a.params[i + 1]? = some s ∧ s.role = .refinement ∧
      a.refinementArguments (i + 1) = [] := by
  have hswitched : Spec.Switched a.params :=
    h.params_of (fun _ _ => Spec.read_switched) fun _ _ => functionParams_switched
  obtain ⟨s, hs, hrefinement, hargless⟩ := Spec.hasSwitchAfter_iff.1 (hswitched i q hq hrole)
  refine ⟨s, hs, hrefinement, List.eq_nil_iff_forall_not_mem.2 fun j hj => ?_⟩
  obtain ⟨q', hq', howner⟩ := mem_refinementArguments.1 hj
  exact hargless q' (List.mem_of_getElem? hq') howner

theorem index_eq_of_word (h : Named a.params) {i j : Nat} {p q : Param}
    (hp : a.params[i]? = some p) (hq : a.params[j]? = some q) (hi : a.bindsWord i = true)
    (hj : a.bindsWord j = true) (hname : p.name = q.name) : i = j := by
  have later : ∀ {i j : Nat} {p q : Param}, a.params[i]? = some p → a.params[j]? = some q →
      a.bindsWord j = true → p.name = q.name → ¬i < j := by
    intro i j p q hp hq hj hname hlt
    obtain ⟨rfl, hmodal, hrefinement⟩ := h i j p q hp hq hlt hname
    simp [bindsWord, hp, hq, hmodal, hrefinement, hname] at hj
  have hij := later hp hq hj hname
  have hji := later hq hp hi hname.symm
  omega

end Action

end Homoicon
