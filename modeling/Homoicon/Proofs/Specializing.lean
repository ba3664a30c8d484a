import Homoicon.Evaluate.Operation.Generator
import Homoicon.Evaluate.Step
import Homoicon.Proofs.Naming
import Homoicon.Proofs.Stage.Calls

/-!
# Specializations as calls

To specialize an action whose arguments are all evaluated is to give some of its arguments
beforehand: the call of the specialization takes the others from the code and fills the same slots,
or fails for the same argument.  Specializing twice comes to specializing once.
-/

namespace Homoicon

/-- The units that a call takes if the arguments with a value in `given` are not taken from the
code. -/
def spliced (given : Nat → Option Value) (values : List (Value × Nat)) : List Value :=
  values.filterMap fun e => if (given e.2).isNone then some e.1.quotedIfNeeded else none

/-- The values are accepted by the parameters they go to, in the order of the parameters. -/
def checkArguments (label : String) (arguments : List (Param × Value)) : Except Fault Unit :=
  arguments.forM fun e => checkType label e.1 e.2

theorem checkUnless_false (label : String) (p : Param) (v : Value) :
    checkUnless false label p v = checkType label p v := by
  unfold checkUnless
  rw [Bool.and_false]
  rfl

theorem spliced_cons (given : Nat → Option Value) (v : Value) (k : Nat) (values : List Value) :
    spliced given ((v :: values).zipIdx k) =
      if (given k).isNone then v.quotedIfNeeded :: spliced given (values.zipIdx (k + 1))
      else spliced given (values.zipIdx (k + 1)) := by
  unfold spliced
  rw [List.zipIdx_cons, List.filterMap_cons]
  dsimp only
  split <;> rename_i h
  · split at h
    · cases h
    · rename_i hsome
      rw [if_neg hsome]
  · split at h
    · rename_i hnone
      cases h
      rw [if_pos hnone]
    · cases h

theorem spliced_none (values : List Value) (k : Nat) :
    spliced (fun _ => none) (values.zipIdx k) = values.map Value.quotedIfNeeded := by
  induction values generalizing k with
  | nil => rfl
  | cons v rest ih =>
    rw [spliced_cons, ih, List.map_cons]
    rfl

theorem length_spliced (given : Nat → Option Value) (values : List Value) (k : Nat) :
    (spliced given (values.zipIdx k)).length +
      (List.range' k values.length).countP (fun i => (given i).isSome) = values.length := by
  induction values generalizing k with
  | nil => rfl
  | cons v rest ih =>
    have hrest := ih (k + 1)
    rw [spliced_cons, List.length_cons, List.range'_succ, List.countP_cons]
    cases given k with
    | none =>
      simp only [Option.isNone_none, Option.isSome_none, if_true, Bool.false_eq_true, if_false,
        List.length_cons]
      omega
    | some w =>
      simp only [Option.isNone_some, Option.isSome_some, if_true, Bool.false_eq_true, if_false]
      omega

namespace Stage

variable {S : Stage} {depth : Nat} {f : Feed} {frame : Frame}

theorem literal_quotedIfNeeded (v : Value) : Literal v.quotedIfNeeded v := by
  unfold Value.quotedIfNeeded
  split
  · rename_i hinert
    exact .inert hinert
  · exact .quoted v

/-- Nothing among the units of a call, and nothing after them, claims one of its arguments. -/
theorem ending_spliced {given : Nat → Option Value} {values : List (Value × Nat)}
    {rest : List Value} (hrest : S.Ending rest.head?) :
    S.Ending (spliced given values ++ rest).head? := by
  cases hunits : spliced given values with
  | nil => exact hrest
  | cons unit units =>
    have hmem : unit ∈ spliced given values := by
      rw [hunits]
      exact List.mem_cons_self
    obtain ⟨e, -, he⟩ := List.mem_filterMap.1 hmem
    obtain ⟨-, he⟩ := Option.ite_none_right_eq_some.1 he
    cases he
    exact (literal_quotedIfNeeded e.1).ending

theorem Gives.literalArgument (patience nesting : Nat) {unit v : Value} {rest : List Value}
    (hroom : depth < S.maxDepth) (hlimit : depth + 1 ≤ S.limit) (hunit : Literal unit v)
    (hunits : f.units = unit :: rest) (hlook : f.noLookahead = false)
    (hending : S.Ending rest.head?) :
    S.Gives depth f (Evaluator.evalExpression ⟨stepWithin patience (nesting + 1), patience⟩ S.feed
      true) (some v) { f with units := rest, lookback := some unit, noLookahead := false } := by
  apply Gives.expression hroom hlimit hlook
  intro id
  have hclaim : S.Unclaiming f.peekNext := by
    rw [Feed.peekNext_cons hunits]
    exact hending.unclaiming
  apply Runs.literal rfl hunit hunits hclaim
  refine Gives.drive (by simp) (Gives.closes ?_ ?_) ?_
  · rfl
  · exact hending
  · apply Gives.finish.mono
    rintro o g n ⟨_, rfl, rfl, rfl, rfl⟩
    exact ⟨_, rfl, ⟨rfl, rfl, rfl⟩, rfl, rfl⟩

/-- An argument is preset or taken from the code; either way it is checked and goes to its slot. -/
theorem Runs.fillPlain (patience nesting : Nat) {p : Param} {v : Value} {preset : Option Value}
    {k : Nat} {c : CallState} {units : List Value} (hroom : depth < S.maxDepth)
    (hlimit : depth + 1 ≤ S.limit) (hframe : frame.feed = S.feed) (hrole : p.role = .normal)
    (howner : p.owner = none) (prefixed : c.action.enfixed = false)
    (hpreset : c.action.preset? k = preset)
    (hagree : ∀ w, preset = some w → w = v ∧ p.types.accepts w = true)
    (hunits : f.units = if preset.isNone then v.quotedIfNeeded :: units else units)
    (hending : S.Ending units.head?) (hlook : f.noLookahead = false)
    (hdeferring : f.deferring = false) :
    S.Runs depth f
      (Evaluator.fillParam ⟨stepWithin patience (nesting + 1), patience⟩ frame c p k) fun o g _ =>
      match checkType c.label p v with
      | .ok _ => o = .done (c.fill k v) ∧ g.units = units ∧ g.noLookahead = false ∧
          g.deferring = false
      | .error e => o = .failed e := by
  cases preset with
  | some w =>
    obtain ⟨rfl, haccepts⟩ := hagree w rfl
    have hchecked : checkType c.label p w = .ok () := by
      unfold checkType
      rw [haccepts]
      rfl
    unfold Evaluator.fillParam
    simp only [hpreset, howner, Option.isSome_none, checkUnless_false, hchecked]
    exact Runs.pure ⟨rfl, hunits, hlook, hdeferring⟩
  | none =>
    have hunits : f.units = v.quotedIfNeeded :: units := hunits
    have hliteral := literal_quotedIfNeeded v
    have hkept : f.kept c.action.enfixed = f := by
      rw [prefixed]
      rfl
    have hargument := Gives.literalArgument patience nesting hroom hlimit hliteral
      hunits hlook hending
    rw [← hkept] at hargument
    apply Runs.fillNormal hframe hpreset hrole (Feed.atArgumentEnd_cons hunits hliteral.ne_comma)
      hdeferring hargument
    · rintro g n ⟨_, hv, rfl, -⟩
      cases hv
    · exact ⟨by simp, by simp, by simp⟩
    · rintro w g n ⟨_, hw, rfl, rfl, -⟩
      cases hw
      rw [howner, Option.isSome_none, checkUnless_false]
      cases checkType c.label p v with
      | ok _ => exact ⟨rfl, rfl, rfl, hdeferring⟩
      | error e => rfl

/-- How a call ends that has these values for its parameters from `k` on: all slots are filled with
them, or the first one that is not accepted is the fault. -/
def Filled (c : CallState) (k : Nat) (arguments : List (Param × Value)) (rest : List Value) :
    Outcome CallState → Feed → Nat → Prop :=
  fun o g _ =>
    match checkArguments c.label arguments with
    | .ok _ => ∃ c', o = .done c' ∧ c'.action = c.action ∧ c'.requests = c.requests ∧
        c'.pickups = c.pickups ∧ c'.slots = c.slots.take k ++ arguments.map Prod.snd ∧
        g.units = rest
    | .error e => o = .failed e

theorem Filled.cons {p : Param} {v : Value} {k n : Nat} {c : CallState}
    {others : List (Param × Value)} {rest : List Value} {o : Outcome CallState}
    (h : Filled (c.fill k v) (k + 1) others rest o f n) (hchecked : checkType c.label p v = .ok ())
    (hk : k < c.slots.length) : Filled c k ((p, v) :: others) rest o f n := by
  have hcheck : checkArguments c.label ((p, v) :: others) = checkArguments c.label others := by
    show (checkType c.label p v >>= fun _ => checkArguments c.label others) = _
    rw [hchecked]
    rfl
  have hslots : (c.fill k v).slots.take (k + 1) = c.slots.take k ++ [v] := by
    rw [CallState.fill, List.take_succ_eq_append_getElem (by rwa [List.length_set]),
      List.getElem_set_self, List.take_set_of_le (Nat.le_refl k)]
  unfold Filled at h ⊢
  rw [hslots, List.append_assoc] at h
  rw [hcheck]
  exact h

theorem Filled.fault {p : Param} {v : Value} {k n : Nat} {c : CallState}
    {others : List (Param × Value)} {rest : List Value} {e : Fault}
    (h : checkType c.label p v = .error e) :
    Filled c k ((p, v) :: others) rest (.failed e) f n := by
  have hcheck : checkArguments c.label ((p, v) :: others) = .error e := by
    show (checkType c.label p v >>= fun _ => checkArguments c.label others) = _
    rw [h]
    rfl
  unfold Filled
  rw [hcheck]

/-- The pass over parameters that take evaluated arguments or have presets. -/
theorem Runs.mainPassPlain {patience nesting : Nat} {a : Action} {given : Nat → Option Value}
    {arguments : List (Param × Value)} {k : Nat} {c : CallState} {rest : List Value}
    (hroom : depth < S.maxDepth) (hlimit : depth + 1 ≤ S.limit) (hframe : frame.feed = S.feed)
    (hrest : S.Ending rest.head?) (hc : c.action = a) (prefixed : a.enfixed = false)
    (hgiven : ∀ i, a.preset? i = given i)
    (hplain : ∀ e ∈ arguments, e.1.role = .normal ∧ e.1.owner = none)
    (hagree : ∀ e ∈ arguments.zipIdx k, ∀ w, given e.2 = some w →
      w = e.1.2 ∧ e.1.1.types.accepts w = true)
    (hopen : ∀ i ∈ c.filled, i < k) (hlength : c.slots.length = k + arguments.length)
    (hunits : f.units = spliced given ((arguments.map Prod.snd).zipIdx k) ++ rest)
    (hlook : f.noLookahead = false) (hdeferring : f.deferring = false) :
    S.Runs depth f (Evaluator.mainPass ⟨stepWithin patience (nesting + 1), patience⟩ frame
      ((arguments.map Prod.fst).zipIdx k) c) (Filled c k arguments rest) := by
  induction arguments generalizing k c f with
  | nil =>
    refine Runs.pure ⟨c, rfl, rfl, rfl, rfl, ?_, hunits⟩
    rw [List.map_nil, List.append_nil, List.take_of_length_le]
    rw [hlength]
    exact Nat.le_refl _
  | cons e others ih =>
    obtain ⟨p, v⟩ := e
    obtain ⟨hrole, howner⟩ : p.role = .normal ∧ p.owner = none := hplain (p, v) List.mem_cons_self
    have hunfilled : c.isFilled k = false := by
      rw [CallState.isFilled, List.contains_eq_mem, decide_eq_false_iff_not]
      exact fun hmem => Nat.lt_irrefl k (hopen k hmem)
    have hpreset : c.action.preset? k = given k := by rw [hc, hgiven]
    have hk : k < c.slots.length := by
      rw [hlength, List.length_cons]
      omega
    -- after the argument at `k` the others are taken in the same way
    have next : ∀ g, g.units = spliced given ((others.map Prod.snd).zipIdx (k + 1)) ++ rest →
        g.noLookahead = false → g.deferring = false →
        S.Runs depth g (Evaluator.mainPass ⟨stepWithin patience (nesting + 1), patience⟩ frame
          ((others.map Prod.fst).zipIdx (k + 1)) (c.fill k v))
          (Filled (c.fill k v) (k + 1) others rest) := by
      intro g hg hlook hdeferring
      apply ih
      · exact hc
      · exact fun e he => hplain e (List.mem_cons_of_mem _ he)
      · intro e he
        apply hagree e
        rw [List.zipIdx_cons]
        exact List.mem_cons_of_mem _ he
      · intro i hi
        rcases List.mem_cons.1 hi with rfl | hi
        · exact Nat.lt_succ_self i
        · exact Nat.lt_succ_of_lt (hopen i hi)
      · rw [CallState.fill, List.length_set, hlength, List.length_cons]
        omega
      · exact hg
      · exact hlook
      · exact hdeferring
    simp only [List.map_cons, List.zipIdx_cons, Evaluator.mainPass, hunfilled, howner, hrole,
      Option.isSome_none, Bool.or_self, Bool.false_eq_true, if_false]
    rw [List.map_cons, spliced_cons] at hunits
    have hunits' : f.units = if (given k).isNone then
        v.quotedIfNeeded :: (spliced given ((others.map Prod.snd).zipIdx (k + 1)) ++ rest)
      else spliced given ((others.map Prod.snd).zipIdx (k + 1)) ++ rest := by
      rw [hunits]
      split <;> rfl
    have hfill := Runs.fillPlain patience nesting hroom hlimit hframe hrole
      howner (by rw [hc, prefixed]) hpreset
      (fun w hw => hagree ((p, v), k) List.mem_cons_self w hw) hunits' (ending_spliced hrest) hlook
      hdeferring
    cases hchecked : checkType c.label p v with
    | error e =>
      rw [hchecked] at hfill
      apply Runs.bind hfill
      · refine ⟨by simp, ?_, by simp⟩
        intro e' g n he
        rw [he]
        exact Filled.fault hchecked
      · rintro c' g n ⟨⟩
    | ok _ =>
      rw [hchecked] at hfill
      apply Runs.bind hfill
      · exact ⟨by simp, by simp, by simp⟩
      · rintro c' g n ⟨hc', hg, hlook, hdeferring⟩
        cases hc'
        apply (next g hg hlook hdeferring).mono
        exact fun o g' n' h => h.cons hchecked hk

/-- The feed holds some units for a call and others behind them, of which the first is no enfixed
action; no request that concerns the lookahead is pending. -/
structure Offers (S : Stage) (f : Feed) (units rest : List Value) : Prop where
  units : f.units = units ++ rest
  ending : S.Ending rest.head?
  noLookahead : f.noLookahead = false
  deferring : f.deferring = false

/-- How a call ends that has these values for its parameters: all slots hold them, and what was behind
its units is left, or the first value that is not accepted is the fault. -/
def Fills (a : Action) (label : String) (values rest : List Value) :
    Outcome CallState → Feed → Nat → Prop :=
  fun o g _ =>
    match checkArguments label (a.params.zip values) with
    | .ok _ => ∃ c, o = .done c ∧ c.slots = values ∧ g.units = rest
    | .error e => o = .failed e

theorem Runs.fulfilPlain {patience nesting : Nat} {a : Action} (given : Nat → Option Value)
    {values rest : List Value} (label : String) (hroom : depth < S.maxDepth)
    (hlimit : depth + 1 ≤ S.limit) (hframe : frame.feed = S.feed) (prefixed : a.enfixed = false)
    (hgiven : ∀ i, a.preset? i = given i)
    (hplain : ∀ p ∈ a.params, p.role = .normal ∧ p.owner = none)
    (hlength : values.length = a.params.length)
    (hagree : ∀ i p w, a.params[i]? = some p → given i = some w →
      values[i]? = some w ∧ p.types.accepts w = true)
    (hf : S.Offers f (spliced given values.zipIdx) rest) :
    S.Runs depth f (Evaluator.fulfil ⟨stepWithin patience (nesting + 1), patience⟩ frame none
      (CallState.start { action := a, label })) (Fills a label values rest) := by
  let c := CallState.start { action := a, label }
  have hparams : (a.params.zip values).map Prod.fst = a.params :=
    List.map_fst_zip (Nat.le_of_eq hlength.symm)
  have hvalues : (a.params.zip values).map Prod.snd = values :=
    List.map_snd_zip (Nat.le_of_eq hlength)
  have hslots : S.Runs depth f
      (Evaluator.mainPass ⟨stepWithin patience (nesting + 1), patience⟩ frame a.params.zipIdx c)
      (Filled c 0 (a.params.zip values) rest) := by
    have hunits : f.units =
        spliced given (((a.params.zip values).map Prod.snd).zipIdx 0) ++ rest := by
      rw [hvalues]
      exact hf.units
    rw [← congrArg (List.zipIdx · 0) hparams]
    apply Runs.mainPassPlain hroom hlimit hframe hf.ending rfl prefixed hgiven
    · intro e he
      exact hplain e.1 (List.of_mem_zip he).1
    · rintro ⟨⟨p, v⟩, i⟩ he w hw
      have hpv := List.getElem?_zip_eq_some.1 (List.mem_zipIdx_iff_getElem?.1 he)
      obtain ⟨hvalue, haccepts⟩ := hagree i p w hpv.1 hw
      rw [hpv.2] at hvalue
      cases hvalue
      exact ⟨rfl, haccepts⟩
    · intro i hi
      cases hi
    · simp [c, CallState.start, hlength]
    · exact hunits
    · exact hf.noLookahead
    · exact hf.deferring
  -- no refinement is requested and none waits, so the later passes have nothing to do
  unfold Evaluator.fulfil
  apply Gives.andThen (Gives.pure c)
  unfold Filled at hslots
  unfold Fills
  rw [show c.label = label from rfl] at hslots
  cases hchecked : checkArguments label (a.params.zip values) with
  | error e =>
    rw [hchecked] at hslots
    apply Runs.bind hslots
    · exact ⟨by simp, by simp, by simp⟩
    · rintro c' g n ⟨⟩
  | ok _ =>
    rw [hchecked] at hslots
    apply Runs.bind hslots
    · exact ⟨by simp, by simp, by simp⟩
    · rintro c' g n ⟨_, hc', haction, hrequests, hpickups, hslots, hg⟩
      cases hc'
      have hfound : Evaluator.checkRequests c' = .ok () := by
        unfold Evaluator.checkRequests
        rw [hrequests]
        rfl
      rw [hfound, hpickups]
      refine Runs.pure ⟨c', rfl, ?_, hg⟩
      rw [hslots, hvalues, List.take_zero, List.nil_append]

end Stage

/-! ### The operation -/

/-- The action with more arguments given beforehand. -/
def Action.presetWith (a : Action) (given : Nat → Option Value) : Action :=
  { a with
    exemplar := some ((List.range a.params.length).map fun i => (given i).or (a.preset? i)) }

/-- Values for some parameters, each accepted by the one it goes to. -/
def Action.Takes (a : Action) (given : Nat → Option Value) : Prop :=
  ∀ i v, given i = some v →
    ∃ p, a.params[i]? = some p ∧ v ≠ .void ∧ p.types.accepts v = true

namespace Action

variable {a : Action} {given given' : Nat → Option Value}

theorem preset?_presetWith (h : a.Takes given) (hpreset : a.Takes a.preset?) (i : Nat) :
    (a.presetWith given).preset? i = (given i).or (a.preset? i) := by
  have hget : (a.presetWith given).preset? i =
      (((List.range a.params.length).map fun i => (given i).or (a.preset? i))[i]?).join := rfl
  rw [hget, List.getElem?_map]
  by_cases hi : i < a.params.length
  · rw [List.getElem?_range hi]
    rfl
  · have hnone : ∀ {g : Nat → Option Value}, a.Takes g → g i = none := by
      intro g hg
      cases hgi : g i with
      | none => rfl
      | some v =>
        obtain ⟨p, hp, -⟩ := hg i v hgi
        exact absurd (List.getElem?_eq_some_iff.1 hp).1 hi
    rw [hnone h, hnone hpreset, List.getElem?_eq_none (by simpa using hi)]
    rfl

theorem Takes.or (h : a.Takes given) (h' : a.Takes given') :
    a.Takes fun i => (given i).or (given' i) := by
  intro i v hv
  rcases Option.or_eq_some_iff.1 hv with hv | ⟨-, hv⟩
  · exact h i v hv
  · exact h' i v hv

theorem presetWith_presetWith (h : a.Takes given) (hpreset : a.Takes a.preset?) :
    (a.presetWith given).presetWith given' =
      a.presetWith fun i => (given' i).or (given i) := by
  unfold presetWith
  congr 2
  apply List.map_congr_left
  intro i _
  rw [Option.or_assoc]
  exact congrArg _ (preset?_presetWith h hpreset i)

end Action

theorem Action.specialized_eq_presetWith (a : Action) (given : Nat → Option Value) :
    a.specialized (a.params.zipIdx.map fun e => (given e.2).or (a.preset? e.2)) =
      a.presetWith given := by
  unfold Action.specialized Action.presetWith
  congr 2
  apply List.ext_getElem?
  intro i
  rw [List.getElem?_map, List.getElem?_zipIdx, List.getElem?_map, List.getElem?_zipIdx,
    List.getElem?_map]
  by_cases hi : i < a.params.length
  · rw [List.getElem?_eq_getElem hi, List.getElem?_range hi]
    simp only [Option.map_some, Nat.zero_add]
    rw [Option.or_assoc, Option.or_self]
  · rw [List.getElem?_eq_none (Nat.le_of_not_lt hi),
      List.getElem?_eq_none (by rw [List.length_range]; exact Nat.le_of_not_lt hi)]
    rfl

/-- A definition block, run as for a specialization of `a` in a scope made for it. -/
def definitionScope (ev : Evaluator) (a : Action) (definition : List Value) (outer : ScopeId) :
    Eval ScopeId := do
  let scope ← Eval.newScope (some outer)
  definePresets a scope a.params.zipIdx
  let _ ← ev.runUnits definition scope
  return scope

/-- From `m` to `m'` the definition gives the words of some parameters their values and leaves those
of the others as they stood: at the value that was given earlier, or at the placeholder. -/
def Defines (ev : Evaluator) (a : Action) (definition : List Value) (outer : ScopeId)
    (given : Nat → Option Value) (m m' : Machine) : Prop :=
  ∃ scope, definitionScope ev a definition outer m = (.done scope, m') ∧
    ∀ i p, a.params[i]? = some p →
      m'.lookup scope p.name = some (((given i).or (a.preset? i)).getD .void)

/-- Every call of `specialize` on `a` whose definition gives these values makes `b`. -/
def Specializes (ev : Evaluator) (a : Action) (given : Nat → Option Value) (b : Action) : Prop :=
  ∀ (c : Call) (id : Identity) (definition : List Value) (m m' : Machine),
    c.slot 0 = .action id a → c.slot 1 = .block definition →
    Defines ev a definition (m.feed c.frame.feed).scope given m m' →
    Generator.run .specialize ev c m = (.done (.out (.action m'.nextIdentity b)),
      { m' with nextIdentity := m'.nextIdentity + 1 })

theorem isSpecializable_normal {a : Action} {p : Param} {i : Nat} (hp : a.params[i]? = some p)
    (hrole : p.role = .normal) : a.isSpecializable p i = true := by
  unfold Action.isSpecializable Action.bindsWord
  simp [hp, hrole]

theorem presetSlots_run {a : Action} {scope : ScopeId} (given : Nat → Option Value)
    {entries : List (Param × Nat)} {m : Machine}
    (hentries : ∀ e ∈ entries, a.params[e.2]? = some e.1)
    (hplain : ∀ e ∈ entries, e.1.role = .normal)
    (hwords : ∀ e ∈ entries, m.lookup scope e.1.name = some ((given e.2).getD .void))
    (htakes : a.Takes given) :
    presetSlots a scope entries m = (.done (entries.map fun e => given e.2), m) := by
  induction entries with
  | nil => rfl
  | cons e rest ih =>
    obtain ⟨p, i⟩ := e
    have hp : a.params[i]? = some p := hentries (p, i) List.mem_cons_self
    have hrole : p.role = .normal := hplain (p, i) List.mem_cons_self
    have hword : m.lookup scope p.name = some ((given i).getD .void) :=
      hwords (p, i) List.mem_cons_self
    have hslot : presetSlot (a.labelOr "specialization") p (some ((given i).getD .void)) =
        .ok (given i) := by
      cases hv : given i with
      | none => rfl
      | some v =>
        obtain ⟨q, hq, hvoid, haccepts⟩ := htakes i v hv
        rw [hp] at hq
        cases hq
        simp [presetSlot, hrole, haccepts]
    have hpreset : presetOf a scope p i m = (.done (given i), m) := by
      unfold presetOf
      rw [if_pos (isSpecializable_normal hp hrole)]
      have hlook : Eval.lookup scope p.name m = (.done (some ((given i).getD .void)), m) := by
        rw [← hword]
        rfl
      rw [Eval.run_bind_of_done hlook, hslot]
      rfl
    have hrest := ih (fun e he => hentries e (List.mem_cons_of_mem _ he))
      (fun e he => hplain e (List.mem_cons_of_mem _ he))
      (fun e he => hwords e (List.mem_cons_of_mem _ he))
    unfold presetSlots
    rw [Eval.run_bind_of_done hpreset, Eval.run_bind_of_done hrest]
    rfl

theorem specializes_presetWith {ev : Evaluator} {a : Action} {given : Nat → Option Value}
    (hplain : ∀ p ∈ a.params, p.role = .normal) (h : a.Takes given)
    (hpreset : a.Takes a.preset?) : Specializes ev a given (a.presetWith given) := by
  intro c id definition m m' haction hblock hdefines
  obtain ⟨scope, hrun, hwords⟩ := hdefines
  obtain ⟨scope', m₁, hscope, hrun⟩ := Eval.run_bind_eq_done.1 hrun
  obtain ⟨_, m₂, hpresets, hrun⟩ := Eval.run_bind_eq_done.1 hrun
  obtain ⟨v, m₃, hunits, hrun⟩ := Eval.run_bind_eq_done.1 hrun
  cases hrun
  have hslots : presetSlots a scope a.params.zipIdx m' =
      (.done (a.params.zipIdx.map fun e => (given e.2).or (a.preset? e.2)), m') := by
    apply presetSlots_run fun i => (given i).or (a.preset? i)
    · exact fun e he => List.mem_zipIdx_iff_getElem?.1 he
    · exact fun e he => hplain e.1 (List.mem_of_getElem? (List.mem_zipIdx_iff_getElem?.1 he))
    · exact fun e he => hwords e.2 e.1 (List.mem_zipIdx_iff_getElem?.1 he)
    · exact h.or hpreset
  have hmade : a.specialized (a.params.zipIdx.map fun e => (given e.2).or (a.preset? e.2)) =
      a.presetWith given := Action.specialized_eq_presetWith a given
  have hcalled : c.action 0 m = (.done a, m) := by
    unfold Call.action
    rw [haction]
    rfl
  have hdefinition : c.block 1 m = (.done definition, m) := by
    unfold Call.block
    rw [hblock]
    rfl
  have houter : c.scope m = (.done (m.feed c.frame.feed).scope, m) := rfl
  unfold Generator.run
  simp only
  rw [Eval.run_bind_of_done hcalled, Eval.run_bind_of_done hdefinition, Eval.run_bind_of_done houter,
    Eval.run_bind_of_done hscope, Eval.run_bind_of_done hpresets, Eval.run_bind_of_done hunits,
    Eval.run_bind_of_done hslots, hmade]
  rfl

/-- For an action whose arguments are all evaluated, a specialization is a call in advance.  With all
values from the code or with some of them given beforehand, the slots are the same and what is left
of the code is the same, or the fault is the same; one unit fewer is taken for each value that was
given.  Two specializations that give values to different parameters, in either order, make the
action that one specialization with all these values makes. -/
theorem specialized_as_called (a : Action) (made : a.Made)
    (hplain : ∀ p ∈ a.params, p.role = .normal) (prefixed : a.enfixed = false)
    (unspecialized : ∀ i, a.preset? i = none) :
    (∀ (given : Nat → Option Value) (values rest : List Value), a.Takes given →
      values.length = a.params.length → (∀ i v, given i = some v → values[i]? = some v) →
      (spliced given values.zipIdx).length +
        (List.range a.params.length).countP (fun i => (given i).isSome) = a.params.length ∧
      ∀ (S : Stage) (depth patience nesting : Nat) (f f' : Feed) (frame : Frame) (label : String),
        depth < S.maxDepth → depth + 1 ≤ S.limit → frame.feed = S.feed →
        S.Offers f (values.map Value.quotedIfNeeded) rest →
        S.Offers f' (spliced given values.zipIdx) rest →
        S.Runs depth f (Evaluator.fulfil ⟨stepWithin patience (nesting + 1), patience⟩ frame none
          (CallState.start { action := a, label })) (Stage.Fills a label values rest) ∧
        S.Runs depth f' (Evaluator.fulfil ⟨stepWithin patience (nesting + 1), patience⟩ frame none
          (CallState.start { action := a.presetWith given, label }))
          (Stage.Fills a label values rest)) ∧
    ∀ (ev : Evaluator) (given given' : Nat → Option Value), a.Takes given → a.Takes given' →
      (∀ i, given i = none ∨ given' i = none) →
      Specializes ev a given (a.presetWith given) ∧
      Specializes ev a given' (a.presetWith given') ∧
      ∃ b, Specializes ev a (fun i => (given i).or (given' i)) b ∧
        Specializes ev (a.presetWith given) given' b ∧
        Specializes ev (a.presetWith given') given b := by
  have hw := made.wellOwned
  have hparams : ∀ p ∈ a.params, p.role = .normal ∧ p.owner = none := by
    intro p hp
    refine ⟨hplain p hp, ?_⟩
    cases howner : p.owner with
    | none => rfl
    | some r =>
      obtain ⟨i, hi⟩ := List.getElem?_of_mem hp
      obtain ⟨q, hq, hrole⟩ := (hw.owner_before i p r hi howner).2
      rw [hplain q (List.mem_of_getElem? hq)] at hrole
      cases hrole
  have hpreset : a.Takes a.preset? := by
    intro i v hv
    rw [unspecialized] at hv
    cases hv
  have preset_presetWith : ∀ {given}, a.Takes given → ∀ i, (a.presetWith given).preset? i = given i := by
    intro given h i
    rw [Action.preset?_presetWith h hpreset, unspecialized, Option.or_none]
  constructor
  · intro given values rest htakes hlength hvalues
    refine ⟨?_, fun S depth patience nesting f f' frame label hroom hlimit hframe hf hf' => ⟨?_, ?_⟩⟩
    · rw [List.range_eq_range', ← hlength]
      exact length_spliced given values 0
    · refine Stage.Runs.fulfilPlain (fun _ => none) label hroom hlimit hframe prefixed
        unspecialized hparams hlength ?_ ?_
      · intro i p w _ hw
        cases hw
      · rw [spliced_none]
        exact hf
    · refine Stage.Runs.fulfilPlain (a := a.presetWith given) given label hroom hlimit hframe prefixed
        (preset_presetWith htakes) hparams hlength ?_ hf'
      intro i p w hp hw
      obtain ⟨q, hq, -, haccepts⟩ := htakes i w hw
      have hpq : p = q := Option.some.inj (hp.symm.trans hq)
      exact ⟨hvalues i w hw, hpq ▸ haccepts⟩
  · intro ev given given' htakes htakes' hdisjoint
    -- no parameter is given twice, so the order of the definitions is of no matter
    have hswap : (fun i => (given i).or (given' i)) = fun i => (given' i).or (given i) := by
      funext i
      rcases hdisjoint i with h | h
      · rw [h, Option.none_or, Option.or_none]
      · rw [h, Option.none_or, Option.or_none]
    -- a specialization can be specialized as the action itself could be
    have again : ∀ {g g'}, a.Takes g → a.Takes g' →
        Specializes ev (a.presetWith g) g' (a.presetWith fun i => (g' i).or (g i)) := by
      intro g g' hg hg'
      rw [← Action.presetWith_presetWith hg hpreset]
      refine specializes_presetWith (a := a.presetWith g) hplain hg' fun i v hv => ?_
      rw [preset_presetWith hg] at hv
      exact hg i v hv
    refine ⟨specializes_presetWith hplain htakes hpreset,
      specializes_presetWith hplain htakes' hpreset,
      a.presetWith fun i => (given i).or (given' i),
      specializes_presetWith hplain (htakes.or htakes') hpreset, ?_, again htakes' htakes⟩
    rw [hswap]
    exact again htakes htakes'

/-- Whether two values are the same number, or both the placeholder. -/
def Value.sameNumber : Value → Value → Bool
  | .integer m, .integer n => m == n
  | .void, .void => true
  | _, _ => false

theorem Value.eq_of_sameNumber {v w : Value} (h : v.sameNumber w = true) : v = w := by
  unfold sameNumber at h
  split at h
  · rw [eq_of_beq h]
  · rfl
  · cases h

theorem defines_of_run {ev : Evaluator} {a : Action} {definition : List Value} {outer : ScopeId}
    {given : Nat → Option Value} {m : Machine}
    (h : ((definitionScope ev a definition outer m).1.result?.any fun scope =>
      a.params.zipIdx.all fun e =>
        ((definitionScope ev a definition outer m).2.lookup scope e.1.name).any
          (Value.sameNumber (((given e.2).or (a.preset? e.2)).getD .void))) = true) :
    Defines ev a definition outer given m (definitionScope ev a definition outer m).2 := by
  obtain ⟨scope, hscope, hwords⟩ := (Option.any_eq_true _ _).1 h
  refine ⟨scope, Eval.run_of_result? hscope, fun i p hp => ?_⟩
  have hword := List.all_eq_true.1 hwords (p, i) (List.mem_zipIdx_iff_getElem?.2 hp)
  obtain ⟨v, hv, hsame⟩ := (Option.any_eq_true _ _).1 hword
  rw [hv, Value.eq_of_sameNumber hsame]

def pairAction : Action :=
  { label := none
    params := (Spec.read [.word "a", .word "b"]).toOption.elim [] (·.params)
    signature := 0
    dispatcher := .returnTo 0
    exemplar := none
    enfixed := false
    deferral := .none
    description := none }

def ten (i : Nat) : Option Value := if i = 0 then some (.integer 10) else none

def twenty (i : Nat) : Option Value := if i = 1 then some (.integer 20) else none

/-- A call of `specialize` with an action and a definition. -/
def specializeCall (a : Action) (definition : List Value) : Call :=
  { frame := { id := 0, feed := 0 }
    state := { action := default, label := "specialize", slots := [.action 0 a, .block definition] } }

/-- An action of `[a b]`, specialized with `[a: 10]` and called as `f 20`; with `[a: 10 b: 20]`, and
with the two definitions one after the other, both ways round. -/
theorem specialized_as_called_pair : ∃ (ev : Evaluator) (m : Machine) (b : Action),
    (∃ c, (ev.fulfil { id := 0, feed := 0 } none
        (CallState.start { action := pairAction.presetWith ten, label := "f" }) m).1 = .done c ∧
      c.slots = [.integer 10, .integer 20]) ∧
    (∃ id, (Generator.run .specialize ev (specializeCall pairAction
      [.setWord "a", .integer 10, .setWord "b", .integer 20]) m).1 = .done (.out (.action id b))) ∧
    (∃ id, (Generator.run .specialize ev (specializeCall (pairAction.presetWith ten)
      [.setWord "b", .integer 20]) m).1 = .done (.out (.action id b))) ∧
    (∃ id, (Generator.run .specialize ev (specializeCall (pairAction.presetWith twenty)
      [.setWord "a", .integer 10]) m).1 = .done (.out (.action id b))) := by
  let ev := Evaluator.ofConfig {}
  let a := pairAction
  let m : Machine :=
    { Machine.new {} with
      scopes := { cells := #[{}] }
      feeds := #[{ units := [.integer 20], scope := 0 }] }
  let S := Stage.ofMachine m 0 1 ""
  have read : Spec.read [.word "a", .word "b"] = .ok { params := a.params } := rfl
  have made : a.Made := .read read (.inl rfl) rfl rfl
  have hplain : ∀ p ∈ a.params, p.role = .normal := by decide
  have htakes : a.Takes ten ∧ a.Takes twenty := by
    constructor
    · intro i v hv
      obtain ⟨rfl, hv⟩ := Option.ite_none_right_eq_some.1 hv
      cases hv
      exact ⟨_, rfl, by simp, by decide⟩
    · intro i v hv
      obtain ⟨rfl, hv⟩ := Option.ite_none_right_eq_some.1 hv
      cases hv
      exact ⟨_, rfl, by simp, by decide⟩
  have hdisjoint : ∀ i, ten i = none ∨ twenty i = none := by
    intro i
    unfold ten twenty
    split
    · right
      rw [if_neg (by omega)]
    · exact .inl rfl
  obtain ⟨called, defined⟩ := specialized_as_called a made hplain rfl (fun _ => rfl)
  obtain ⟨-, -, b, both, first, second⟩ := defined ev ten twenty htakes.1 htakes.2 hdisjoint
  refine ⟨ev, m, b, ?_, ?_, ?_, ?_⟩
  · let values : List Value := [.integer 10, .integer 20]
    have hvalues : ∀ i v, ten i = some v → values[i]? = some v := by
      intro i v hv
      obtain ⟨rfl, hv⟩ := Option.ite_none_right_eq_some.1 hv
      exact hv
    have hparent : ∀ s p, (m.scopes.scope s).parent = some p → p < s := by
      intro s p h
      exfalso
      match s with
      | 0 => cases h
      | s + 1 => cases h
    have hshows : S.Shows 0 (m.feed 0) m :=
      Stage.ofMachine_shows "" rfl nofun Nat.zero_lt_one Nat.zero_lt_one hparent (Nat.zero_le 1)
    have hroom : 0 < S.maxDepth := by decide
    have hrest : S.Ending ([] : List Value).head? := Stage.ending_none
    obtain ⟨-, runs⟩ := called ten values [] htakes.1 rfl hvalues
    obtain ⟨-, hrun⟩ := runs S 0 defaultPatience (Config.maxDepth {}) { units := values, scope := 0 }
      (m.feed 0) { id := 0, feed := 0 } "f" hroom (Nat.le_refl 1) rfl ⟨rfl, hrest, rfl, rfl⟩
      ⟨rfl, hrest, rfl, rfl⟩
    obtain ⟨⟨g, -, hfills⟩, -⟩ := hrun m hshows
    have hchecked : checkArguments "f" (a.params.zip values) = .ok () := rfl
    unfold Stage.Fills at hfills
    rw [hchecked] at hfills
    obtain ⟨c, hc, hslots, -⟩ := hfills
    exact ⟨c, hc, hslots⟩
  · refine ⟨_, congrArg Prod.fst (both (specializeCall a _) 0 _ m _ rfl rfl (defines_of_run ?_))⟩
    decide +kernel
  · refine ⟨_, congrArg Prod.fst (first (specializeCall _ _) 0 _ m _ rfl rfl (defines_of_run ?_))⟩
    decide +kernel
  · refine ⟨_, congrArg Prod.fst (second (specializeCall _ _) 0 _ m _ rfl rfl (defines_of_run ?_))⟩
    decide +kernel

/-- An argument that is given beforehand takes neither a frame nor a step.  With all of them given
the slots are filled also where no frame is free and where a stop is requested, and with none of them
given they are not. -/
theorem specialized_not_as_called :
    let fulfils (a : Action) (units : List Value) (m : Machine) : Bool :=
      ((Evaluator.ofConfig {}).fulfil { id := 0, feed := 0 } none
        (CallState.start { action := a, label := "f" })
        { m with scopes := { cells := #[{}] }, feeds := #[{ units, scope := 0 }] }).1.result?.isSome
    let specialized := fulfils (pairAction.presetWith fun i => (ten i).or (twenty i)) []
    let called := fulfils pairAction [.integer 10, .integer 20]
    let crowded : Machine := { Machine.new { maxDepth := 1 } with stack := [⟨0, some "f"⟩] }
    let stopped : Machine := { Machine.new { pollInterval := 1 } with interrupt := true }
    (specialized crowded = true ∧ called crowded = false) ∧
      specialized stopped = true ∧ called stopped = false := by
  decide +kernel

end Homoicon
