import Homoicon.Proofs.Agreement
import Homoicon.Proofs.Fulfilment

/-!
# Requests in any order

The refinements of a call are named at the callsite in any order: what decides is the order of the
parameters.  The main pass finds each request by its name when it comes to the refinement, and
nothing after it looks at the requests again, so two calls that request the same refinements in
different orders take the same arguments in the same order and run alike.
-/

namespace Homoicon

/-- A part of a call that does not look at the requests hands them on. -/
def IgnoresRequests (x : CallState → Eval CallState) : Prop :=
  ∀ c requests, x { c with requests } = x c >>= fun c' => pure { c' with requests }

theorem IgnoresRequests.eq {x : CallState → Eval CallState} (hx : IgnoresRequests x) {c : CallState}
    {requests : List Request} :
    x { c with requests } = x c >>= fun c' => pure { c' with requests } :=
  hx c requests

namespace Evaluator

variable {ev : Evaluator} {frame : Frame} {p : Param}

theorem gather_ignores {feed : FeedId} {index : Nat} (c : CallState) (requests : List Request) :
    ev.gather feed { c with requests } p index =
      ev.gather feed c p index >>= fun r => pure (r.1, { r.2 with requests }) := by
  unfold gather
  rw [Eval.bind_assoc]
  refine bind_congr fun ended => ?_
  split
  · split <;> rfl
  · rw [Eval.bind_assoc]
    refine bind_congr fun deferring => ?_
    split
    · rfl
    · rw [Eval.bind_assoc]
      refine bind_congr fun unit? => ?_
      split
      · rfl
      · split
        · split <;> rfl
        · simp only [Eval.bind_assoc]
          rfl
        · split
          · rfl
          · simp only [Eval.bind_assoc]
            rfl
        · rw [Eval.bind_assoc]
          rfl

theorem fillParam_ignores {index : Nat} (c : CallState) (requests : List Request) :
    ev.fillParam frame { c with requests } p index =
      ev.fillParam frame c p index >>= fun c' => pure { c' with requests } := by
  unfold fillParam
  dsimp only
  cases c.action.preset? index with
  | some preset =>
    simp only [Eval.bind_assoc]
    rfl
  | none =>
    dsimp only
    cases p.role with
    | localWord => rfl
    | returns => rfl
    | variadic pull =>
      simp only [Eval.bind_assoc]
      rfl
    | refinement => rfl
    | _ =>
      dsimp only
      rw [gather_ignores, Eval.bind_assoc, Eval.bind_assoc]
      refine bind_congr fun r => ?_
      obtain ⟨taken, c'⟩ := r
      cases taken with
      | none => rfl
      | some v =>
        simp only [Eval.bind_assoc]
        rfl

theorem fillAll_ignores {indices : List Nat} : IgnoresRequests (ev.fillAll frame indices) := by
  intro c requests
  induction indices generalizing c with
  | nil => rfl
  | cons index rest ih =>
    have hfilled : CallState.isFilled { c with requests } index = c.isFilled index := rfl
    unfold fillAll
    rw [hfilled]
    dsimp only
    split
    · exact ih c
    · cases c.action.params[index]? with
      | none => exact ih c
      | some p =>
        dsimp only
        rw [fillParam_ignores, Eval.bind_assoc, Eval.bind_assoc]
        exact bind_congr fun c' => ih c'

theorem revokeIfNull_ignores {refinement : Nat} {arguments : List Nat} :
    IgnoresRequests fun c => revokeIfNull c refinement arguments := by
  intro c requests
  cases arguments with
  | nil => rfl
  | cons first rest =>
    show revokeIfNull { c with requests } refinement (first :: rest) =
      revokeIfNull c refinement (first :: rest) >>= _
    have hslot : ∀ i, CallState.slot { c with requests } i = c.slot i := fun _ => rfl
    unfold revokeIfNull
    simp only [hslot]
    split
    · rfl
    · split <;> rfl

theorem pickupPass_ignores {pending : List Nat} : IgnoresRequests (ev.pickupPass frame pending) := by
  intro c requests
  induction pending generalizing c with
  | nil => rfl
  | cons refinement rest ih =>
    unfold pickupPass
    dsimp only
    rw [fillAll_ignores.eq, Eval.bind_assoc, Eval.bind_assoc]
    refine bind_congr fun c₁ => ?_
    show revokeIfNull { c₁ with requests } _ _ >>= _ = _
    rw [revokeIfNull_ignores.eq, Eval.bind_assoc, Eval.bind_assoc]
    exact bind_congr fun c₂ => ih c₂

/-! ### Running a call -/

theorem refillFrom_ignores {scope : ScopeId} {entries : List (Param × Nat)} :
    IgnoresRequests (refillFrom scope entries) := by
  intro c requests
  induction entries generalizing c with
  | nil => rfl
  | cons entry rest ih =>
    obtain ⟨p, index⟩ := entry
    unfold refillFrom
    dsimp only
    split
    · rw [Eval.bind_assoc]
      refine bind_congr fun v? => ?_
      cases v? with
      | some v => exact ih (c.refill index v)
      | none => exact ih c
    · exact ih c

theorem runPrelude_ignores {prelude : List Value} {scope : ScopeId} :
    IgnoresRequests fun c => ev.runPrelude c prelude scope := by
  intro c requests
  show (bodyScope c scope >>= fun inner => ev.runUnits prelude inner >>= fun _ =>
      refillFrom inner c.action.params.zipIdx { c with requests }) =
    (bodyScope c scope >>= fun inner => ev.runUnits prelude inner >>= fun _ =>
      refillFrom inner c.action.params.zipIdx c) >>= _
  rw [Eval.bind_assoc]
  refine bind_congr fun inner => ?_
  rw [Eval.bind_assoc]
  refine bind_congr fun _ => ?_
  exact refillFrom_ignores c requests

section Operations

variable (c : CallState) (requests : List Request)

theorem loopTimes_ignores (c' : CallState) {body : List Value} {last : Option Value} (n : Nat) :
    ev.loopTimes { frame, state := c' } body last n =
      ev.loopTimes { frame, state := c } body last n := by
  induction n generalizing last with
  | zero => rfl
  | succ n ih =>
    refine bind_congr fun flow => ?_
    cases flow with
    | next v => exact ih
    | stop => rfl

theorem loopWhile_ignores (c' : CallState) {condition body : List Value} {last : Option Value}
    (n : Nat) :
    ev.loopWhile { frame, state := c' } condition body last n =
      ev.loopWhile { frame, state := c } condition body last n := by
  induction n generalizing last with
  | zero => rfl
  | succ n ih =>
    refine bind_congr fun test => ?_
    split
    · refine bind_congr fun flow => ?_
      cases flow with
      | next v => exact ih
      | stop => rfl
    · rfl

theorem run_operation_ignores (op : Operation) :
    op.run ev { frame, state := { c with requests } } = op.run ev { frame, state := c } := by
  cases op with
  | arithmetic op => cases op <;> rfl
  | comparison op => cases op <;> rfl
  | access op => cases op <;> rfl
  | generator op => cases op <;> rfl
  | host op => cases op <;> rfl
  | control op =>
    cases op with
    | loop =>
      refine bind_congr fun count => bind_congr fun body => ?_
      rw [loopTimes_ignores c]
    | whileTrue =>
      refine bind_congr fun condition => bind_congr fun body => ?_
      rw [loopWhile_ignores c]
    | _ => rfl

end Operations

end Evaluator

/-- Two calls that differ in nothing but their requests. -/
def CallState.Alike (c c' : CallState) : Prop := ∃ requests, c' = { c with requests }

/-- Two calls with the same requests, none of them twice, in different orders. -/
structure CallState.Reordered (c c' : CallState) : Prop where
  alike : c.Alike c'
  perm : c'.requests.Perm c.requests
  distinct : (c.requests.map (·.name)).Nodup

/-- Two calls by path that name the same declared refinements in different orders. -/
structure PendingCall.Reordered (p p' : PendingCall) : Prop where
  eq : p' = { p with requests := p'.requests }
  perm : p'.requests.Perm p.requests
  distinct : p.requests.Nodup
  declared : ∀ name ∈ p.requests, ∃ q ∈ p.action.params, q.role = .refinement ∧ q.name = name
  wellOwned : WellOwned p.action.params
  left : p.left = none

/-- The request as it is after the one of a given name was found. -/
def Request.found (name : String) (r : Request) : Request :=
  if r.name = name then { r with matched := true } else r

theorem Request.name_found (name : String) (r : Request) : (r.found name).name = r.name := by
  unfold found
  split <;> rfl

theorem Request.found_of_matched {name : String} {r : Request} (h : r.matched = true) :
    r.found name = r := by
  unfold found
  split
  · rw [← h]
  · rfl

namespace Evaluator

variable {ev : Evaluator} {frame : Frame} {p : Param} {a : Action} {c c' d : CallState}
  {q q' : PendingCall} {requests : List Request} {index : Nat}

/-! ### Finding a request -/

/-- Only one request can have the name, so it does not matter which one is found first. -/
theorem matchRequest_eq {name : String} (h : (requests.map (·.name)).Nodup) :
    matchRequest name requests = requests.map (Request.found name) := by
  induction requests with
  | nil => rfl
  | cons r rest ih =>
    obtain ⟨hnot, hrest⟩ := List.nodup_cons.1 h
    rw [matchRequest, List.map_cons]
    split
    · rename_i hfirst
      have hname : r.name = name := by
        rw [Bool.and_eq_true] at hfirst
        exact eq_of_beq hfirst.2
      have hothers : rest.map (Request.found name) = rest := by
        rw [List.map_congr_left (g := fun r => r), List.map_id']
        intro r' hr'
        exact if_neg fun he => hnot (List.mem_map.2 ⟨r', hr', he.trans hname.symm⟩)
      rw [hothers, Request.found, if_pos hname]
    · rename_i hfirst
      have hsame : r.found name = r := by
        by_cases hname : r.name = name
        · exact Request.found_of_matched (by simpa [hname] using hfirst)
        · exact if_neg hname
      rw [hsame, ih hrest]

theorem isRequested_perm (h : requests.Perm c.requests) :
    isRequested { c with requests } p = isRequested c p :=
  h.any_eq

theorem foldl_fill_ignores (c : CallState) (indices : List Nat) :
    indices.foldl (fun c i => c.fill i .null) { c with requests } =
      { indices.foldl (fun c i => c.fill i .null) c with requests } := by
  induction indices generalizing c with
  | nil => rfl
  | cons i rest ih => exact ih (c.fill i .null)

theorem noteRefinement_perm (h : requests.Perm c.requests) :
    noteRefinement { c with requests } p index =
      (noteRefinement c p index).map fun d =>
        { d with requests := matchRequest p.name requests } := by
  have hrequested := isRequested_perm (p := p) h
  have hinUse : isInUse { c with requests } p index = isInUse c p index := by
    unfold isInUse
    rw [hrequested]
  unfold noteRefinement
  simp only [hrequested, hinUse]
  split
  · rfl
  · split
    · split <;> rfl
    · exact congrArg Except.ok (foldl_fill_ignores
        (CallState.fill { c with requests := matchRequest p.name c.requests } index .null) _)

theorem requests_noteRefinement (h : noteRefinement c p index = .ok d) :
    d.requests = matchRequest p.name c.requests := by
  have hsame : noteRefinement c p index = _ := noteRefinement_perm (.refl c.requests)
  rw [h] at hsame
  exact congrArg CallState.requests (Except.ok.inj hsame)

theorem reordered_noteRefinement (p : Param) (index : Nat) (h : c.Reordered c') :
    (∃ f, noteRefinement c p index = .error f ∧ noteRefinement c' p index = .error f) ∨
      ∃ d d', noteRefinement c p index = .ok d ∧ noteRefinement c' p index = .ok d' ∧
        d.Reordered d' := by
  obtain ⟨⟨requests, rfl⟩, hperm, hdistinct⟩ := h
  have hsame : noteRefinement { c with requests } p index = _ := noteRefinement_perm hperm
  cases hd : noteRefinement c p index with
  | error f => exact .inl ⟨f, rfl, by rw [hsame, hd]; rfl⟩
  | ok d =>
    refine .inr ⟨d, _, rfl, by rw [hsame, hd]; rfl, ⟨_, rfl⟩, ?_, ?_⟩
    · have hdistinct' : (requests.map (·.name)).Nodup := (hperm.map _).nodup_iff.2 hdistinct
      rw [requests_noteRefinement hd, matchRequest_eq hdistinct, matchRequest_eq hdistinct']
      exact hperm.map _
    · rw [requests_noteRefinement hd, matchRequest_eq hdistinct, List.map_map]
      rwa [show (Request.name ∘ Request.found p.name) = Request.name from
        funext fun r => r.name_found p.name]

/-! ### Filling the slots -/

/-- Whoever is requested and not found yet is still to come among the parameters. -/
def Awaited (entries : List (Param × Nat)) (c : CallState) : Prop :=
  ∀ r ∈ c.requests, r.matched = false →
    ∃ e ∈ entries, e.1.role = .refinement ∧ e.1.name = r.name

variable {S : Respelling} {m : Machine}

theorem awaited_noteRefinement {rest : List (Param × Nat)} (h : Awaited ((p, index) :: rest) c)
    (hdistinct : (c.requests.map (·.name)).Nodup) (hd : noteRefinement c p index = .ok d) :
    Awaited rest d := by
  intro r hr hopen
  rw [requests_noteRefinement hd, matchRequest_eq hdistinct] at hr
  obtain ⟨r', hr', rfl⟩ := List.mem_map.1 hr
  have hother : r'.name ≠ p.name := by
    intro hname
    rw [Request.found, if_pos hname] at hopen
    cases hopen
  have hsame : r'.found p.name = r' := if_neg hother
  rw [hsame] at hopen ⊢
  obtain ⟨e, he, hrole, hname⟩ := h r' hr' hopen
  rcases List.mem_cons.1 he with rfl | he
  · exact absurd hname.symm hother
  · exact ⟨e, he, hrole, hname⟩

theorem awaited_tail {rest : List (Param × Nat)} (h : Awaited ((p, index) :: rest) c)
    (hr : p.role ≠ .refinement) (hd : d.requests = c.requests) : Awaited rest d := by
  intro r hmem hopen
  obtain ⟨e, he, hrole, hname⟩ := h r (hd ▸ hmem) hopen
  rcases List.mem_cons.1 he with rfl | he
  · exact absurd hrole hr
  · exact ⟨e, he, hrole, hname⟩

theorem requests_fillParam {m' : Machine} (h : ev.fillParam frame c p index m = (.done d, m')) :
    d.requests = c.requests := by
  have hsame : ev.fillParam frame c p index m =
      (ev.fillParam frame c p index >>= fun c' => pure { c' with requests := c.requests }) m :=
    congrArg (Eval.run · m) (fillParam_ignores c c.requests)
  rw [h, Eval.run_bind_of_done h] at hsame
  have hd : d = { d with requests := c.requests } := Outcome.done.inj (Prod.mk.inj hsame).1
  have hrequests := congrArg CallState.requests hd
  exact hrequests

theorem good_call (c : CallState) : c.Good Facts.all := ⟨Action.good_all _, Value.goodAll_all _⟩

theorem agree_of_ignores (requests : List Request) {x : CallState → Eval CallState}
    {Q : CallState → Prop} (hx : IgnoresRequests x) (hm : S.Consumed m)
    (hblind : Blind S.feed S.unit S.rest.length Q (x c)) :
    S.Agree (fun d d' => d' = { d with requests }) (x c) (x { c with requests }) m := by
  rw [hx c requests]
  exact (Respelling.Agree.of_blind hm hblind).turned fun d d' hd => by rw [hd]

theorem reordered_start (h : q.Reordered q') :
    (CallState.start q).Reordered (CallState.start q') := by
  have hnames : (CallState.start q).requests.map (·.name) = q.requests := by
    simp [CallState.start, Function.comp_def]
  refine ⟨⟨(CallState.start q').requests, ?_⟩, h.perm.map _, by rw [hnames]; exact h.distinct⟩
  rw [h.eq]
  rfl

theorem awaited_start (h : q.Reordered q') :
    Awaited q.action.params.zipIdx (CallState.start q) := by
  intro r hr _
  obtain ⟨name, hname, rfl⟩ := List.mem_map.1 hr
  obtain ⟨r, hr, hrole, hrname⟩ := h.declared name hname
  obtain ⟨i, hi⟩ := List.mem_iff_getElem?.1 hr
  exact ⟨(r, i), List.mem_zipIdx_iff_getElem?.2 hi, hrole, hrname⟩

theorem checkRequests_of_awaited (h : Awaited [] c) : checkRequests c = .ok () := by
  have hnone : c.requests.find? (fun r => !r.matched) = none := by
    rw [List.find?_eq_none]
    intro r hr
    cases hopen : r.matched with
    | true => simp
    | false =>
      obtain ⟨e, he, -⟩ := h r hr hopen
      cases he
  rw [checkRequests, hnone]

/-- A call that fails names the unit consumed last, but no fault depends on it otherwise. -/
theorem nearLast_agree {e e' : Fault} (he : e'.bare = e.bare) (feed : FeedId) :
    S.Agree (fun e e' => Fault.bare e' = Fault.bare e)
      (do
        match ← Eval.command (.lookback feed) with
        | some unit => return e.nearUnit unit.mold
        | none => return e)
      (do
        match ← Eval.command (.lookback feed) with
        | some unit => return e'.nearUnit unit.mold
        | none => return e') m := by
  refine (Respelling.Agree.command (R := fun _ _ => True) trivial rfl).bind
    fun unit? unit?' _ _ _ => ?_
  cases unit? <;> cases unit?' <;> exact .ret (by simp [he])

section

variable (N : S.logic.Nested ev)
include N

/-- The main pass takes the same arguments for both calls, and finds all that is requested. -/
theorem mainPass_agree (hw : WellOwned a.params) {k : Nat} (hk : k ≤ a.params.length)
    {entries : List (Param × Nat)} (hentries : a.params.zipIdx.drop k = entries)
    (hm : S.Consumed m) (h : c.Filling a none k c.pickups) (hr : c.Reordered c')
    (hawaited : Awaited entries c) :
    S.Agree (fun d d' => d.Reordered d' ∧ Awaited [] d) (ev.mainPass frame entries c)
      (ev.mainPass frame entries c') m := by
  induction entries generalizing k c c' m with
  | nil => exact .ret ⟨hr, hawaited⟩
  | cons entry rest ih =>
    obtain ⟨p, index⟩ := entry
    obtain ⟨rfl, hp, hrest⟩ := entry_of_drop hentries
    have hlt := (List.getElem?_eq_some_iff.1 hp).1
    obtain ⟨requests, rfl⟩ := hr.alike
    have hfilled : CallState.isFilled { c with requests } index = c.isFilled index := rfl
    unfold mainPass
    rw [hfilled]
    by_cases hskip : (c.isFilled index || p.owner.isSome) = true
    · simp only [hskip, if_true]
      have hskip' : index ∈ c.filled ∨ p.owner.isSome = true := by
        rwa [Bool.or_eq_true, CallState.isFilled, List.contains_iff_mem] at hskip
      have hrole := not_refinement_of_skip hw (by simp) h hp hskip'
      exact ih hlt hrest hm (h.skip hw hp hrole hskip') hr (awaited_tail hawaited hrole rfl)
    · rw [if_neg hskip, if_neg hskip]
      rw [Bool.or_eq_true, not_or, CallState.isFilled, List.contains_iff_mem] at hskip
      obtain ⟨hf, howner⟩ := hskip
      by_cases hrole : p.role = .refinement
      · have hbeq : (p.role == .refinement) = true := by simp [hrole]
        rw [if_pos hbeq, if_pos hbeq]
        rcases reordered_noteRefinement p index hr with
          ⟨f, hc, hc'⟩ | ⟨d, d', hc, hc', hd⟩
        · rw [hc, hc']
          exact .fail rfl
        · rw [hc, hc']
          exact ih hlt hrest hm (noteRefinement_filling hw hp hrole hf h hc) hd
            (awaited_noteRefinement hawaited hr.distinct hc)
      -- an argument is taken alike by both, since what it is does not depend on the requests
      · have hbeq : ¬(p.role == .refinement) = true := by simpa using hrole
        rw [if_neg hbeq, if_neg hbeq]
        have hblind : S.logic.Holds {}
            (fun d => d.Good Facts.all ∧ d.action = c.action) (ev.fillParam frame c p index) :=
          S.logic.fillParam N (good_call c)
        refine (agree_of_ignores requests (x := fun c => ev.fillParam frame c p index) fillParam_ignores hm
          hblind).bind fun d d' m' hrun hd => ?_
        subst hd
        have he := fillParam_returns (h.slots.action ▸ hp) hrole (h.slots.length ▸ hlt) m d m' hrun
        have hfilling := h.takeFree hw hp hrole (by simpa using howner) hf (h.slots.action ▸ he)
        rw [← he.pickups] at hfilling
        have hrequests := requests_fillParam hrun
        refine ih hlt hrest (hm.of_run hrun) hfilling ⟨⟨_, rfl⟩, ?_, ?_⟩
          (awaited_tail hawaited hrole hrequests)
        · rw [hrequests]
          exact hr.perm
        · rw [hrequests]
          exact hr.distinct

theorem fulfil_agree (hm : S.Consumed m) (h : q.Reordered q') :
    S.Agree CallState.Alike (ev.fulfil frame q.left (CallState.start q))
      (ev.fulfil frame q'.left (CallState.start q')) m := by
  have hleft : q'.left = none := by
    rw [h.eq]
    exact h.left
  rw [h.left, hleft]
  have hmain : S.Agree (fun d d' => d.Reordered d' ∧ Awaited [] d)
      (ev.mainPass frame q.action.params.zipIdx (CallState.start q))
      (ev.mainPass frame q.action.params.zipIdx (CallState.start q')) m :=
    mainPass_agree N h.wellOwned (Nat.zero_le _) rfl hm (.start q) (reordered_start h)
      (awaited_start h)
  have haction : q'.action = q.action := by rw [h.eq]
  show S.Agree _ (ev.mainPass frame q.action.params.zipIdx (CallState.start q) >>= _)
    (ev.mainPass frame q'.action.params.zipIdx (CallState.start q') >>= _) m
  rw [haction]
  refine hmain.bind fun d d' m' hrun ⟨hd, hawaited⟩ => ?_
  obtain ⟨requests, rfl⟩ := hd.alike
  have hawaited' : Awaited [] { d with requests } := fun r hr => hawaited r (hd.perm.mem_iff.1 hr)
  rw [checkRequests_of_awaited hawaited, checkRequests_of_awaited hawaited']
  have hblind : S.logic.Holds {}
      (fun d' => d'.Good Facts.all ∧ d'.action = d.action) (ev.pickupPass frame d.pickups d) :=
    S.logic.pickupPass N (good_call d)
  have hpick := agree_of_ignores requests (x := ev.pickupPass frame d.pickups) pickupPass_ignores
    (hm.of_run hrun) hblind
  exact hpick.mono fun e e' he => ⟨requests, he⟩

/-! ### Running the call -/

theorem runDispatcher_agree (hm : S.Consumed m) (h : c.Alike c') :
    S.Agree (fun r r' => r'.1 = r.1 ∧ r.2.Alike r'.2) (ev.runDispatcher frame c)
      (ev.runDispatcher frame c') m := by
  obtain ⟨requests, rfl⟩ := h
  have hd : c.action.dispatcher.Good Facts.all := Dispatcher.good_all _
  unfold runDispatcher
  dsimp only
  cases hdispatcher : c.action.dispatcher with
  | native n =>
    have hblind : S.logic.Holds { call := some (n, c) }
        (fun b => b.Final Facts.all ∨ b.Good Facts.all ∧ ∃ host, n.operation = .host host)
        (n.operation.run ev { frame, state := c }) :=
      S.logic.runOperation N rfl trivial (good_call c) fun _ => trivial
    dsimp only
    refine (Respelling.Agree.operation rfl).bind fun _ _ m' hrun _ => ?_
    rw [run_operation_ignores c requests]
    refine (Respelling.Agree.of_blind (hm.of_run hrun) hblind).bind fun b b' _ _ hb => ?_
    exact .ret ⟨hb.symm, requests, rfl⟩
  | interpreted body scope =>
    have hblind : S.logic.Holds { frame := some frame.id }
        (Bounce.Final Facts.all) (ev.runBody frame.id c body scope) :=
      S.logic.runBody N (good_call c) (Value.goodAll_all body)
    refine (Respelling.Agree.of_blind hm hblind).bind fun b b' _ _ hb => ?_
    exact .ret ⟨hb.symm, requests, rfl⟩
  | adapted prelude scope adaptee =>
    have hblind : S.logic.Holds {}
        (fun d => d.Good Facts.all ∧ d.action = c.action) (ev.runPrelude c prelude scope) :=
      S.logic.runPrelude N (good_call c) (Value.goodAll_all prelude)
    refine (agree_of_ignores requests runPrelude_ignores hm hblind).bind
      fun d d' _ _ hd => ?_
    exact .ret ⟨rfl, requests, hd⟩
  | returnTo target => exact .signal

theorem runFilled_agree {fuel : Nat} (hm : S.Consumed m) (h : c.Alike c') :
    S.Agree Eq (ev.runFilled frame fuel c) (ev.runFilled frame fuel c') m := by
  induction fuel generalizing c c' m with
  | zero => exact .exhaust
  | succ fuel ih =>
    refine (runDispatcher_agree N hm h).bind fun r r' m₁ h₁ ⟨hb, hr⟩ => ?_
    obtain ⟨b, d⟩ := r
    obtain ⟨b', d'⟩ := r'
    obtain rfl : b' = b := hb
    obtain ⟨requests, rfl⟩ := hr
    have hm₁ := hm.of_run h₁
    cases b' with
    | out v => exact .ret rfl
    | invisible => exact .ret rfl
    | redo action checked =>
      dsimp only
      split
      · exact .fail rfl
      · have hnote : S.logic.Holds {} (fun _ => True)
            (Eval.note (.redone d.label checked)) := S.logic.note
        refine (Respelling.Agree.of_blind hm₁ hnote).bind fun _ _ m₂ h₂ _ => ?_
        have hm₂ := hm₁.of_run h₂
        have hcheck : S.logic.Holds {} (fun _ => True)
            (Eval.onlyIf checked (Eval.ofExcept (CallState.checkAll { d with action }))) :=
          S.logic.onlyIf (fun _ => S.logic.mono S.logic.checkAll fun _ _ => trivial) fun _ => trivial
        refine (Respelling.Agree.of_blind hm₂ hcheck).bind fun _ _ m₃ h₃ _ => ?_
        exact ih (hm₂.of_run h₃) ⟨requests, rfl⟩

theorem runCall_agree {id : FrameId} (hm : S.Consumed m) (h : q.Reordered q') :
    S.Agree Eq (ev.runCall { id, feed := S.feed } q)
      (ev.runCall { id, feed := S.feed } q') m := by
  have hnote : S.logic.Holds {} (fun _ => True)
      (Eval.note (.invoked q.label id q.left.isSome)) := S.logic.note
  have hlabel : q'.label = q.label := by rw [h.eq]
  have haction : q'.action = q.action := by rw [h.eq]
  have hleft : q'.left = q.left := by rw [h.eq]
  unfold runCall
  rw [hlabel, haction, hleft]
  refine (Respelling.Agree.of_blind hm hnote).bind fun _ _ m₁ h₁ _ => ?_
  have hm₁ := hm.of_run h₁
  have hfulfil : S.Agree CallState.Alike
      (ev.fulfil { id, feed := S.feed } q.left (CallState.start q))
      (ev.fulfil { id, feed := S.feed } q'.left (CallState.start q')) m₁ := fulfil_agree N hm₁ h
  rw [hleft] at hfulfil
  exact hfulfil.bind fun d d' m₂ h₂ hd => runFilled_agree N (hm₁.of_run h₂) hd

theorem invoke_agree (hm : S.Consumed m) (h : q.Reordered q') :
    S.Agree Eq (ev.invoke S.feed q) (ev.invoke S.feed q') m := by
  have hlabel : q'.label = q.label := by rw [h.eq]
  unfold invoke
  rw [hlabel]
  refine Respelling.Agree.mapFault (.inFrame ?_) fun e e' m' he => nearLast_agree he S.feed
  exact runCall_agree N ⟨hm.size, hm.units_le⟩ h

end

end Evaluator

end Homoicon
