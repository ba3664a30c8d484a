import Homoicon.Proofs.Renumbering.Runs

/-!
# Paths under a renumbering
-/

namespace Homoicon

variable {ρ : Renumbering}

/-- How an evaluator runs nested code, as far as a renumbering sees it. -/
structure Renumbering.Nested (ρ : Renumbering) (ev : Evaluator) : Prop where
  runUnits {units units' : List Value} {scope : ScopeId} (h : Value.AllMatch ρ units units') :
    ρ.Holds (Value.MaybeMatch ρ) (ev.runUnits units scope) (ev.runUnits units' scope)
  evalExpression {feed : FeedId} {fulfilling : Bool} :
    ρ.Holds (Value.MaybeMatch ρ) (ev.evalExpression feed fulfilling)
      (ev.evalExpression feed fulfilling)
  reduceUnits {units units' : List Value} {scope : ScopeId} (h : Value.AllMatch ρ units units') :
    ρ.Holds (Value.AllMatch ρ) (ev.reduceUnits units scope) (ev.reduceUnits units' scope)

structure PendingCall.Matches (ρ : Renumbering) (p p' : PendingCall) : Prop where
  action : p.action.Matches ρ p'.action
  label : p'.label = p.label
  left : Value.MaybeMatch ρ p.left p'.left
  requests : p'.requests = p.requests

inductive PathOutcome.Matches (ρ : Renumbering) : PathOutcome → PathOutcome → Prop
  | call {p p' : PendingCall} (h : p.Matches ρ p') : PathOutcome.Matches ρ (.call p) (.call p')
  | value {v v' : Value} (h : v.Matches ρ v') : PathOutcome.Matches ρ (.value v) (.value v')

/-! ### Picking -/

section

variable {items items' : List Value} {v v' key key' : Value}

theorem badPath_matches (h : Value.AllMatch ρ items items') :
    (badPath items).Matches ρ (badPath items') :=
  .of (.append (.refl _) (Value.Matches.path h).mold)

theorem badSegment_matches (h : v.Matches ρ v') :
    (Evaluator.badSegment v).Matches ρ (Evaluator.badSegment v') :=
  .of (.append (.refl _) (.append h.mold (.refl _)))

theorem selectIndex?_matches (h : Value.AllMatch ρ items items') (name : String) :
    selectIndex? items' name = selectIndex? items name := by
  unfold selectIndex?
  congr 1
  induction h with
  | nil => rfl
  | cons hv _ ih =>
    rw [List.findIdx?_cons, List.findIdx?_cons, ih]
    cases hv <;> rfl

theorem element_matches (h : Value.AllMatch ρ items items') (i : Nat) :
    ((items[i]?).getD .null).Matches ρ ((items'[i]?).getD .null) :=
  rel_getD (rel_getElem? h i) .null

theorem pickItem?_matches (hv : v.Matches ρ v') (hk : key.Matches ρ key') :
    Value.MaybeMatch ρ (pickItem? v key) (pickItem? v' key') := by
  cases hv with
  | block h =>
    cases hk with
    | integer n =>
      exact rel_map (rel_same (fun _ => rfl) (position? n)) fun i _ hi => hi ▸ element_matches h i
    | word name =>
      show Option.Rel _ (Option.map _ _) (Option.map _ _)
      rw [selectIndex?_matches h]
      exact rel_map (rel_same (fun _ => rfl) _) fun i _ hi => hi ▸ element_matches h i
    | _ => exact .none
  | group h =>
    cases hk with
    | integer n =>
      exact rel_map (rel_same (fun _ => rfl) (position? n)) fun i _ hi => hi ▸ element_matches h i
    | _ => exact .none
  | text s =>
    cases hk with
    | integer n =>
      refine rel_map (rel_same (fun _ => rfl) (position? n)) fun i j hi => ?_
      subst hi
      cases s.toList[i]? with
      | none => exact .null
      | some c => exact .text _
    | _ => exact .none
  | _ => exact .none

theorem assignIndex?_matches (h : Value.AllMatch ρ items items') (hk : key.Matches ρ key') :
    assignIndex? items' key' = assignIndex? items key := by
  unfold assignIndex?
  rw [h.length_eq]
  cases hk with
  | word name => simp only [selectIndex?_matches h]
  | _ => rfl

end

namespace Renumbering

variable {ev : Evaluator} {feed : FeedId} {items items' : List Value} {v v' key key' : Value}

theorem pick (hv : v.Matches ρ v') (hk : key.Matches ρ key') :
    ρ.Holds (Value.MaybeMatch ρ) (pick v key) (pick v' key') := by
  have item := pickItem?_matches hv hk
  cases hv with
  | frame f =>
    cases hk with
    | word name => exact .frameArgument
    | _ => exact .ret item
  | _ => exact .ret item

variable (N : ρ.Nested ev)
include N

theorem evalPathGroup (h : Value.AllMatch ρ items items') :
    ρ.Holds (Value.Matches ρ) (ev.evalPathGroup feed items) (ev.evalPathGroup feed items') := by
  refine Holds.scopeOf.bind fun s _ hs => ?_
  subst hs
  exact (N.runUnits h).bind fun _ _ hv => .ret (rel_getD hv .null)

theorem segmentRequest (h : v.Matches ρ v') :
    ρ.Holds Eq (ev.segmentRequest feed v) (ev.segmentRequest feed v') := by
  have bad := badSegment_matches h
  cases h with
  | word name => exact .ret rfl
  | group h =>
    refine (evalPathGroup N h).bind fun w w' hw => ?_
    have bad := badSegment_matches hw
    cases hw with
    | word _ | refinement _ | blank | null => exact .ret rfl
    | _ => exact .fail bad
  | _ => exact .fail bad

theorem requestsOf {found : List String} (h : Value.AllMatch ρ items items') :
    ρ.Holds Eq (ev.requestsOf feed found items) (ev.requestsOf feed found items') := by
  induction h generalizing found with
  | nil => exact .ret rfl
  | cons hv _ ih =>
    refine (segmentRequest N hv).bind fun name _ hname => ?_
    subst hname
    cases name with
    | none => exact ih
    | some name =>
      dsimp only
      split
      · exact .failWith (.refl _)
      · exact ih

theorem segmentKey (h : v.Matches ρ v') :
    ρ.Holds (Value.Matches ρ) (ev.segmentKey feed v) (ev.segmentKey feed v') := by
  cases h with
  | group h => exact evalPathGroup N h
  | _ => exact .ret (by constructor <;> assumption)

theorem pickAlong {whole whole' : List Value} (hw : Value.AllMatch ρ whole whole')
    (hv : v.Matches ρ v') (h : Value.AllMatch ρ items items') :
    ρ.Holds (Value.Matches ρ) (ev.pickAlong feed whole v items)
      (ev.pickAlong feed whole' v' items') := by
  induction h generalizing v v' with
  | nil => exact .ret hv
  | cons hs _ ih =>
    refine (segmentKey N hs).bind fun key key' hkey => (pick hv hkey).bind fun o o' ho => ?_
    cases ho with
    | none => exact .fail (badPath_matches hw)
    | some h => exact ih h

theorem pathHead {whole whole' : List Value} (hw : Value.AllMatch ρ whole whole')
    (h : v.Matches ρ v') :
    ρ.Holds (fun r r' => r.1.Matches ρ r'.1 ∧ r'.2 = r.2) (ev.pathHead feed whole v)
      (ev.pathHead feed whole' v') := by
  have hinert := h.isInert
  have other : ρ.Holds (fun r r' => r.1.Matches ρ r'.1 ∧ r'.2 = r.2)
      (if v.isInert then (pure (v, "anonymous") : Eval (Value × String))
        else Eval.fail (badPath whole))
      (if v'.isInert then pure (v', "anonymous") else Eval.fail (badPath whole')) := by
    rw [hinert]
    split
    · exact .ret ⟨h, rfl⟩
    · exact .fail (badPath_matches hw)
  cases h with
  | word name => exact Holds.resolve.bind fun _ _ hv => .ret ⟨hv, rfl⟩
  | group h => exact (evalPathGroup N h).bind fun _ _ hv => .ret ⟨hv, rfl⟩
  | _ => exact other

theorem evalPath {invoke : Bool} (h : Value.AllMatch ρ items items') :
    ρ.Holds (PathOutcome.Matches ρ) (ev.evalPath feed items invoke)
      (ev.evalPath feed items' invoke) := by
  have bad := badPath_matches h
  have whole := h
  cases h with
  | nil => exact .fail bad
  | cons hhead hrest =>
    refine (pathHead N whole hhead).bind fun r r' hr => ?_
    obtain ⟨v, label⟩ := r
    obtain ⟨v', label'⟩ := r'
    obtain ⟨hv, rfl⟩ : v.Matches ρ v' ∧ label' = label := hr
    have value := hv
    cases hv with
    | action id ha =>
      dsimp only
      split
      · refine (requestsOf N hrest).bind fun requests _ hrequests => ?_
        exact .ret (.call ⟨ha, rfl, .none, hrequests.symm⟩)
      · cases hrest with
        | nil => exact .ret (.value value)
        | cons _ _ => exact .fail bad
    | _ => exact (pickAlong N whole value hrest).bind fun _ _ hv => .ret (.value hv)

theorem evalPathValue (h : Value.AllMatch ρ items items') :
    ρ.Holds (Value.Matches ρ) (ev.evalPathValue feed items) (ev.evalPathValue feed items') := by
  refine (evalPath N h).bind fun r r' hr => ?_
  cases hr with
  | call _ => exact .failWith (.append (.refl _) (Value.Matches.getPath h).mold)
  | value hv => exact .ret hv

theorem assignPath (h : Value.AllMatch ρ items items') (hv : v.Matches ρ v') :
    ρ.Holds (fun _ _ => True) (ev.assignPath feed items v) (ev.assignPath feed items' v') := by
  have bad := badPath_matches h
  cases h with
  | nil => exact .fail bad
  | cons hhead hrest =>
    cases hrest with
    | nil => cases hhead <;> exact .fail bad
    | cons hsegment hmore =>
      cases hmore with
      | cons _ _ => cases hhead <;> exact .fail bad
      | nil =>
        cases hhead with
        | word head =>
          refine (segmentKey N hsegment).bind fun key key' hkey => ?_
          refine Holds.resolve.bind fun b b' hb => ?_
          cases hb with
          | block hblock =>
            dsimp only
            rw [assignIndex?_matches hblock hkey]
            cases assignIndex? _ key with
            | none => exact .fail bad
            | some i =>
              refine Holds.scopeOf.bind fun s _ hs => ?_
              subst hs
              exact .assign (.block (rel_set hblock i hv))
          | _ => exact .fail bad
        | _ => exact .fail bad

theorem softEscape (h : v.Matches ρ v') :
    ρ.Holds (Value.MaybeMatch ρ) (ev.softEscape feed v) (ev.softEscape feed v') := by
  cases h with
  | group h =>
    refine Holds.scopeOf.bind fun s _ hs => ?_
    subst hs
    exact N.runUnits h
  | getWord name => exact Holds.resolveGet.bind fun _ _ hv => .ret (.some hv)
  | getPath h => exact (evalPathValue N h).bind fun _ _ hv => .ret (.some hv)
  | _ => exact .ret (.some (by constructor <;> assumption))

theorem evalSilenced (h : v.Matches ρ v') :
    ρ.Holds (Value.MaybeMatch ρ) (ev.evalSilenced feed v) (ev.evalSilenced feed v') := by
  cases h with
  | word name => exact Holds.resolveGet.bind fun _ _ hv => .ret (.some hv)
  | group h =>
    refine Holds.scopeOf.bind fun s _ hs => ?_
    subst hs
    exact N.runUnits h
  | path h | getPath h => exact (evalPathValue N h).bind fun _ _ hv => .ret (.some hv)
  | _ => exact .ret (.some (by constructor <;> assumption))

end Renumbering

end Homoicon
