import Homoicon.Proofs.Lookback

/-!
# Runs of code spelt in two ways

The same code is run twice, with one unit of it spelt in two ways.  The two runs agree if they ask
the same things of the machine in the same order, end alike, and leave machines that differ in
nothing but that unit, where the feed still has it: before its end, or as the unit consumed last.
Two things may differ on the way, since they quote the spelling: the unit that a fault arose near,
and the requests of a call.
-/

namespace Homoicon

/-- The fault without the unit it arose near. -/
def Fault.bare (f : Fault) : Fault := { f with near := none }

@[simp] theorem Fault.bare_nearUnit (f : Fault) (unit : String) :
    (f.nearUnit unit).bare = f.bare := by
  cases h : f.near <;> simp [nearUnit, bare, h]

theorem Fault.bare_inCall? (f : Fault) (label : Option String) :
    (f.inCall? label).bare = f.bare.inCall? label := by
  cases label with
  | none => rfl
  | some l => cases h : f.label <;> simp [inCall?, inCall, bare, h]

/-- The moment without the unit that its fault arose near and without the requests of its call. -/
def Moment.bare : Moment → Moment
  | .asked (.mark (.operation n c)) m => .asked (.mark (.operation n { c with requests := [] })) m
  | .faulted f m => .faulted f.bare m
  | k => k

/-- Two outcomes of the same sort, with results that `R` relates, the same signal, or faults that
differ at most in the unit they arose near. -/
def Outcome.Like {α β : Type} (R : α → β → Prop) : Outcome α → Outcome β → Prop
  | .done a, .done b => R a b
  | .thrown s, .thrown s' => s' = s
  | .failed f, .failed f' => f'.bare = f.bare
  | .exhausted, .exhausted => True
  | _, _ => False

namespace Outcome.Like

variable {α β : Type} {R S : α → β → Prop} {o : Outcome α} {o' : Outcome β}

theorem mono (h : o.Like R o') (hRS : ∀ a b, R a b → S a b) : o.Like S o' := by
  cases o <;> cases o' <;> first | exact h | exact hRS _ _ h

theorem leave (h : o.Like R o') (label : Option String) :
    (o.leave label).Like R (o'.leave label) := by
  cases o <;> cases o' <;> try exact h
  rename_i f f'
  show (f'.inCall? label).bare = (f.inCall? label).bare
  rw [f'.bare_inCall?, f.bare_inCall?, show f'.bare = f.bare from h]

end Outcome.Like

/-- A unit of a feed and its other spelling: the feed, the spelling, and what stands behind the
unit. -/
structure Respelling where
  feed : FeedId
  unit : Value
  rest : List Value

namespace Respelling

/-- The feed with the unit in its other spelling, as its current unit or the one consumed last. -/
def inFeed (S : Respelling) (f : Feed) : Feed :=
  if f.units.length = S.rest.length + 1 then { f with units := S.unit :: S.rest }
  else f.relook S.unit S.rest.length

/-- The machine with the unit in its other spelling. -/
def machine (S : Respelling) (m : Machine) : Machine := m.updateFeed S.feed S.inFeed

/-- The logic of evaluations that do not see the unit once it is consumed. -/
abbrev logic (S : Respelling) : Logic Facts.all := blindness S.feed S.unit S.rest.length

/-- What `x` does on `m`, `y` does on the machine with the unit in its other spelling, with results
that `R` relates. -/
structure Agree {α β : Type} (S : Respelling) (R : α → β → Prop) (x : Eval α) (y : Eval β)
    (m : Machine) : Prop where
  outcome : (x m).1.Like R (y (S.machine m)).1
  left : (y (S.machine m)).2 = S.machine (x m).2
  trace : (y.trace (S.machine m)).map Moment.bare =
    (x.trace m).map fun k => (k.on S.machine).bare

variable {S : Respelling} {α β γ δ : Type} {R : α → β → Prop} {m : Machine} {x : Eval α}
  {y : Eval β}

/-- When the unit is consumed, only the memory of it can tell the spellings apart. -/
theorem machine_eq_relook (h : m.units S.feed ≤ S.rest.length) :
    S.machine m = m.relook S.feed S.unit S.rest.length :=
  Machine.updateFeed_congr (if_neg (Nat.ne_of_lt (Nat.lt_succ_of_le h)))

/-- The machine has consumed the unit. -/
abbrev Consumed (S : Respelling) (m : Machine) : Prop := m.LeavesAtMost S.feed S.rest.length

namespace Agree

theorem mono {Q : α → β → Prop} (h : S.Agree R x y m) (hRQ : ∀ a b, R a b → Q a b) :
    S.Agree Q x y m :=
  ⟨h.outcome.mono hRQ, h.left, h.trace⟩

theorem eq_of_done {x y : Eval α} {a : α} {m' : Machine} (h : S.Agree Eq x y m)
    (hrun : x m = (.done a, m')) : y (S.machine m) = (.done a, S.machine m') := by
  obtain ⟨houtcome, hleft, -⟩ := h
  rw [hrun] at houtcome hleft
  rcases hrun' : y (S.machine m) with ⟨b | s | e | _, n⟩ <;> rw [hrun'] at houtcome hleft
  · obtain rfl : a = b := houtcome
    exact congrArg _ hleft
  all_goals exact houtcome.elim

theorem ret {a : α} {b : β} (h : R a b) : S.Agree R (pure a) (pure b) m := ⟨h, rfl, rfl⟩

theorem fail {f f' : Fault} (h : f'.bare = f.bare) :
    S.Agree R (.fail f : Eval α) (.fail f' : Eval β) m := by
  refine ⟨h, rfl, ?_⟩
  show [Moment.faulted f'.bare (S.machine m)] = [Moment.faulted f.bare (S.machine m)]
  rw [h]

theorem signal {s : Signal} : S.Agree R (.signal s : Eval α) (.signal s : Eval β) m :=
  ⟨rfl, rfl, rfl⟩

theorem exhaust : S.Agree R (.exhaust : Eval α) (.exhaust : Eval β) m := ⟨trivial, rfl, rfl⟩

/-- A command that changes nothing of the unit is asked alike, whatever the two answers. -/
theorem command {R : β → β → Prop} {c : Command β} (hR : R (c.run m).1 (c.run (S.machine m)).1)
    (hleft : (c.run (S.machine m)).2 = S.machine (c.run m).2) :
    S.Agree R (Eval.command c) (Eval.command c) m :=
  ⟨hR, hleft, by cases c with
    | mark k => cases k <;> rfl
    | _ => rfl⟩

theorem operation {n : Native} {c c' : CallState} (h : c' = { c with requests := c'.requests }) :
    S.Agree (fun _ _ => True) (Eval.command (.mark (.operation n c)))
      (Eval.command (.mark (.operation n c'))) m := by
  rw [h]
  exact ⟨trivial, rfl, rfl⟩

/-- What does not see the unit consumed last agrees with itself. -/
theorem of_overlooks (hm : S.Consumed m)
    (h : Overlooks S.feed S.unit S.rest.length x m) : S.Agree Eq x x m := by
  have hmachine : ∀ {m' : Machine}, Machine.FeedsShrink m m' →
      S.machine m' = m'.relook S.feed S.unit S.rest.length := fun hm' =>
    machine_eq_relook (Nat.le_trans (hm'.units_le S.feed hm.size) hm.units_le)
  obtain ⟨hmoments, hend⟩ := x.trace_feeds m
  have hon : ∀ k ∈ x.trace m,
      (k.on (Machine.relook S.feed S.unit S.rest.length)).bare = (k.on S.machine).bare := by
    intro k hk
    have hk := hmachine (hmoments k hk)
    cases k <;> simp only [Moment.on, Moment.before] at hk ⊢ <;> rw [hk]
  refine ⟨?_, ?_, ?_⟩
  · rw [hmachine (.refl m), h.run]
    cases (x m).1 with
    | exhausted => trivial
    | _ => exact rfl
  · rw [hmachine (.refl m), hmachine hend, h.run]
  · rw [hmachine (.refl m), h.trace, List.map_map]
    exact List.map_congr_left hon

theorem of_blind {Q : α → Prop} (hm : S.Consumed m)
    (h : Blind S.feed S.unit S.rest.length Q x) : S.Agree Eq x x m :=
  of_overlooks hm (h.overlooks hm)

theorem bind {Q : γ → δ → Prop} {f : α → Eval γ} {g : β → Eval δ} (hx : S.Agree R x y m)
    (hf : ∀ a b m', x m = (.done a, m') → R a b → S.Agree Q (f a) (g b) m') :
    S.Agree Q (x >>= f) (y >>= g) m := by
  obtain ⟨houtcome, hleft, htrace⟩ := hx
  rcases hrun : x m with ⟨a | s | e | _, m'⟩ <;>
    rcases hrun' : y (S.machine m) with ⟨b | s' | e' | _, n⟩ <;>
    rw [hrun, hrun'] at houtcome hleft <;> try exact houtcome.elim
  · obtain rfl : n = S.machine m' := hleft
    obtain ⟨houtcome', hleft', htrace'⟩ := hf a b m' hrun houtcome
    refine ⟨?_, ?_, ?_⟩
    · rwa [Eval.run_bind_of_done hrun, Eval.run_bind_of_done hrun']
    · rwa [Eval.run_bind_of_done hrun, Eval.run_bind_of_done hrun']
    · rw [Eval.trace_bind, Eval.trace_bind, hrun, hrun', List.map_append, List.map_append, htrace]
      exact congrArg _ htrace'
  all_goals
    refine ⟨?_, ?_, ?_⟩
    · rwa [Eval.run_bind, Eval.run_bind, hrun, hrun']
    · rwa [Eval.run_bind, Eval.run_bind, hrun, hrun']
    · rw [Eval.trace_bind, Eval.trace_bind, hrun, hrun', List.map_append, List.map_append, htrace]
      rfl

theorem turned {Q : α → δ → Prop} {f : β → δ} (hx : S.Agree R x y m)
    (hf : ∀ a b, R a b → Q a (f b)) : S.Agree Q x (y >>= fun b => pure (f b)) m := by
  rw [← Eval.bind_pure x]
  exact hx.bind fun a b _ _ h => ret (hf a b h)

/-- How two results or signals that were seen compare. -/
def SignalSeen (R : α → β → Prop) : Except Signal α → Except Signal β → Prop
  | .ok a, .ok b => R a b
  | .error s, .error s' => s' = s
  | _, _ => False

/-- How two results or faults that were seen compare. -/
def FaultSeen (R : α → β → Prop) : Except Fault α → Except Fault β → Prop
  | .ok a, .ok b => R a b
  | .error f, .error f' => f'.bare = f.bare
  | _, _ => False

theorem catchSignal (h : S.Agree R x y m) :
    S.Agree (SignalSeen R) x.catchSignal y.catchSignal m := by
  obtain ⟨houtcome, hleft, htrace⟩ := h
  refine ⟨?_, ?_, ?_⟩
  · rw [x.run_catchSignal, y.run_catchSignal]
    revert houtcome
    cases (x m).1 <;> cases (y (S.machine m)).1 <;> exact id
  · rw [x.run_catchSignal, y.run_catchSignal, hleft]
  · rw [x.trace_catchSignal, y.trace_catchSignal, htrace]

theorem catchFault (h : S.Agree R x y m) : S.Agree (FaultSeen R) x.catchFault y.catchFault m := by
  obtain ⟨houtcome, hleft, htrace⟩ := h
  refine ⟨?_, ?_, ?_⟩
  · rw [x.run_catchFault, y.run_catchFault]
    revert houtcome
    cases (x m).1 <;> cases (y (S.machine m)).1 <;> exact id
  · rw [x.run_catchFault, y.run_catchFault, hleft]
  · rw [x.trace_catchFault, y.trace_catchFault, htrace]

theorem mapFault {f : Fault → Eval Fault} (hx : S.Agree R x y m)
    (hf : ∀ e e' m', e'.bare = e.bare →
      S.Agree (fun e e' => Fault.bare e' = Fault.bare e) (f e) (f e') m') :
    S.Agree R (x.mapFault f) (y.mapFault f) m := by
  refine hx.catchFault.bind fun r r' m' _ hr => ?_
  cases r <;> cases r' <;> try exact hr.elim
  · exact (hf _ _ m' hr).bind fun _ _ _ _ he => fail he
  · exact ret hr

theorem inFrame {label : Option String} {body : FrameId → Eval α} {body' : FrameId → Eval β}
    (h : S.Agree R (body m.nextFrame) (body' m.nextFrame) (m.enter label)) :
    S.Agree R (.inFrame label body .done) (.inFrame label body' .done) m := by
  have hnext : (S.machine m).nextFrame = m.nextFrame := rfl
  have henter : (S.machine m).enter label = S.machine (m.enter label) := rfl
  obtain ⟨houtcome, hleft, htrace⟩ := h
  by_cases hroom : m.config.maxDepth ≤ m.depth
  · have hroom' : (S.machine m).config.maxDepth ≤ (S.machine m).depth := hroom
    refine ⟨?_, ?_, ?_⟩
    · simp only [Eval.run, hroom, hroom', if_true]
      rfl
    · simp only [Eval.run, hroom, hroom', if_true]
    · simp only [Eval.trace, hroom, hroom', if_true]
      rfl
  · have hroom' : ¬(S.machine m).config.maxDepth ≤ (S.machine m).depth := hroom
    refine ⟨?_, ?_, ?_⟩
    · rw [Eval.run_inFrame hroom, Eval.run_inFrame hroom', hnext, henter]
      exact houtcome.leave label
    · rw [Eval.run_inFrame hroom, Eval.run_inFrame hroom', hnext, henter, hleft]
      rfl
    · rw [Eval.trace_inFrame hroom, Eval.trace_inFrame hroom', hnext, henter, hleft]
      simp only [List.map_cons, List.map_append, htrace]
      rfl

end Agree

end Respelling

end Homoicon
